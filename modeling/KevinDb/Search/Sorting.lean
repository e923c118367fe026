import KevinDb.Lib.StableSort
import KevinDb.Search.Builder

namespace KevinDb
set_option autoImplicit true
open Std

/-! Interners. -/

namespace TermInterner

variable {interner : TermInterner}

/-- The bytes of a range. -/
def slice (interner : TermInterner) (range : Nat × Nat) : List UInt8 :=
  (interner.bytes.drop range.1).take (range.2 - range.1)

/-- An identifier has a range, which lies within the bytes. -/
def Knows (interner : TermInterner) (termId : UInt32) : Prop :=
  ∃ start stop, interner.terms[termId.toNat]? = some (start, stop) ∧ start ≤ stop ∧
    stop ≤ interner.bytes.length

/-- An interner is filled term by term. -/
def filled (terms : List (List UInt8)) : TermInterner :=
  terms.foldl (fun interner term => (interner.intern term).2) .empty

/-- The ranges lie within the bytes, no two have the same bytes, and those of all are looked up. -/
structure Sound (interner : TermInterner) : Prop where
  within : ∀ range ∈ interner.terms, range.1 ≤ range.2 ∧ range.2 ≤ interner.bytes.length
  nodup : (interner.terms.map interner.slice).Nodup
  lookup : ∀ term, interner.lookup[term]?.isSome ↔ term ∈ interner.terms.map interner.slice

theorem sound_empty : Sound .empty := by
  refine ⟨nofun, .nil, fun term => ?_⟩
  simp [empty]

/-- A term that is looked up in vain gets a range of its own. -/
theorem Sound.intern (h : interner.Sound) (term : List UInt8) : (interner.intern term).2.Sound := by
  rw [TermInterner.intern]
  split
  · exact h
  next hnone =>
    have hold : interner.terms.map (slice { interner with bytes := interner.bytes ++ term }) =
        interner.terms.map interner.slice := by
      apply List.map_congr_left
      intro range hrange
      obtain ⟨hle, hwithin⟩ := h.within range hrange
      rw [slice, slice, List.drop_append_of_le_length (hle.trans hwithin),
        List.take_append_of_le_length (by rw [List.length_drop]; omega)]
    have hslices : (interner.terms ++ [(interner.bytes.length,
        (interner.bytes ++ term).length)]).map
          (slice { interner with bytes := interner.bytes ++ term }) =
            interner.terms.map interner.slice ++ [term] := by
      rw [List.map_append, hold, List.map_singleton, slice, List.drop_left, List.length_append,
        Nat.add_sub_cancel_left, List.take_length]
    have hnew : term ∉ interner.terms.map interner.slice := by
      rw [← h.lookup, hnone]
      nofun
    refine ⟨?_, ?_, fun other => ?_⟩
    · rw [List.forall_mem_append, List.forall_mem_singleton]
      refine ⟨fun range hrange => ?_, ?_⟩
      · obtain ⟨hle, hwithin⟩ := h.within range hrange
        exact ⟨hle, hwithin.trans (by simp)⟩
      · exact ⟨by simp, Nat.le_refl _⟩
    · change ((interner.terms ++ _).map
        (slice { interner with bytes := interner.bytes ++ term })).Nodup
      rw [hslices]
      exact h.nodup.append (List.nodup_singleton term) (by simpa using hnew)
    · change _ ↔ other ∈ (interner.terms ++ _).map
        (slice { interner with bytes := interner.bytes ++ term })
      rw [hslices, Table.get_insert, List.mem_append, List.mem_singleton, ← h.lookup]
      split
      next heq => simp [heq]
      next hne => simp [Ne.symm hne]

theorem sound_filled (terms : List (List UInt8)) : (filled terms).Sound := by
  have hfold (interner : TermInterner) (h : interner.Sound) :
      (terms.foldl (fun interner term => (interner.intern term).2) interner).Sound := by
    induction terms generalizing interner with
    | nil => exact h
    | cons term terms ih => exact ih _ (h.intern term)
  exact hfold _ sound_empty

/-- An identifier below the number of terms is known. -/
theorem Sound.knows (h : interner.Sound) {termId : UInt32}
    (hbound : termId.toNat < interner.terms.length) : interner.Knows termId := by
  obtain ⟨hle, hwithin⟩ := h.within _ (List.getElem_mem hbound)
  exact ⟨_, _, List.getElem?_eq_getElem hbound, hle, hwithin⟩

/-- Identifiers of the same bytes are the same. -/
theorem Sound.term_injective (h : interner.Sound) {termId termId' : UInt32}
    (hknows : interner.Knows termId) (hknows' : interner.Knows termId')
    (hterm : interner.term termId = interner.term termId') : termId = termId' := by
  obtain ⟨start, stop, hget, -, -⟩ := hknows
  obtain ⟨start', stop', hget', -, -⟩ := hknows'
  rw [term, hget, term, hget'] at hterm
  obtain ⟨hbound, hrange⟩ := List.getElem?_eq_some_iff.1 hget
  have hsame : (interner.terms.map interner.slice)[termId.toNat]? =
      (interner.terms.map interner.slice)[termId'.toNat]? := by
    rw [List.getElem?_map, List.getElem?_map, hget, hget']
    exact congrArg some hterm
  exact UInt32.toNat_inj.1 ((List.getElem?_inj (by simpa using hbound) h.nodup).1 hsame)

end TermInterner

/-! Radix sort. -/

/-- A common beginning does not count in a comparison. -/
theorem compare_append_left [Ord α] [ReflOrd α] (front back back' : List α) :
    compare (front ++ back) (front ++ back') = compare back back' := by
  induction front with
  | nil => rfl
  | cons a front ih =>
    rw [List.cons_append, List.cons_append, List.compare_cons_cons, ReflOrd.compare_self, ih]
    rfl

section radix

variable [TermOccurrence α] {interner : TermInterner} {depth : Nat}

/-- Terms that are the same up to a depth compare as their buckets there do. -/
theorem compare_of_bucketOf_lt {a b : α}
    (hfront : (interner.termOf a).take depth = (interner.termOf b).take depth)
    (hlt : interner.bucketOf depth a < interner.bucketOf depth b) :
    compare (interner.termOf a) (interner.termOf b) = .lt := by
  rw [TermInterner.bucketOf, TermInterner.bucketOf] at hlt
  rw [← List.take_append_drop depth (interner.termOf a),
    ← List.take_append_drop depth (interner.termOf b), hfront, compare_append_left]
  rw [← List.head?_drop, ← List.head?_drop] at hlt
  cases ha : (interner.termOf a).drop depth with
  | nil =>
    cases hb : (interner.termOf b).drop depth with
    | nil =>
      rw [ha, hb] at hlt
      exact absurd hlt (Nat.lt_irrefl _)
    | cons byte' rest' => exact List.compare_nil_cons
  | cons byte rest =>
    cases hb : (interner.termOf b).drop depth with
    | nil =>
      rw [ha, hb] at hlt
      exact absurd hlt (Nat.not_lt_zero _)
    | cons byte' rest' =>
      rw [ha, hb] at hlt
      have hbyte : byte < byte' := UInt8.lt_iff_toNat_lt.2 (Nat.lt_of_succ_lt_succ hlt)
      have hcompare : compare byte byte' = .lt := if_pos hbyte
      rw [List.compare_cons_cons, hcompare]
      rfl

theorem bucketOf_lt (interner : TermInterner) (depth : Nat) (a : α) :
    interner.bucketOf depth a < 257 := by
  rw [TermInterner.bucketOf]
  split
  next byte _ =>
    have := byte.toNat_lt
    omega
  next => decide

/-- In a bucket behind the first, the terms are the same one byte further on. -/
theorem take_succ_of_bucketOf {bucketIndex : Nat} {a b : α} (hindex : bucketIndex ≠ 0)
    (hfront : (interner.termOf a).take depth = (interner.termOf b).take depth)
    (ha : interner.bucketOf depth a = bucketIndex) (hb : interner.bucketOf depth b = bucketIndex) :
    (interner.termOf a).take (depth + 1) = (interner.termOf b).take (depth + 1) := by
  have hbyte : (interner.termOf a)[depth]? = (interner.termOf b)[depth]? := by
    rw [TermInterner.bucketOf] at ha hb
    split at ha
    next byte hbyte =>
      split at hb
      next byte' hbyte' =>
        rw [hbyte, hbyte', Option.some.injEq]
        exact UInt8.toNat_inj.1 (Nat.succ_injective (ha.trans hb.symm))
      next => exact absurd hb.symm hindex
    next => exact absurd ha.symm hindex
  rw [List.take_add_one, List.take_add_one, hfront, hbyte]

/-- Occurrences whose terms are the same up to a depth are sorted from there on. -/
theorem radixSortedOccurrences_stable (interner : TermInterner) (occurrences : List α)
    (depth : Nat) (hfront : ∀ a ∈ occurrences, ∀ b ∈ occurrences,
      (interner.termOf a).take depth = (interner.termOf b).take depth) :
    IsStableSort interner.termOf occurrences
      (radixSortedOccurrences interner occurrences depth) := by
  induction hrest : interner.restLength depth occurrences using Nat.strongRecOn
    generalizing occurrences depth with
  | ind rest ih =>
    rw [radixSortedOccurrences]
    split
    · exact isStableSort_ordered interner.termOf occurrences
    · apply IsStableSort.buckets (fun a _ => bucketOf_lt interner depth a)
        fun a ha b hb => compare_of_bucketOf_lt (hfront a ha b hb)
      intro bucketIndex _
      dsimp only
      split
      next hempty =>
        rw [TermInterner.bucket] at hempty
        rw [hempty]
        exact .nil
      next hempty =>
        split
        · exact isStableSort_ordered interner.termOf _
        next hindex =>
          have hless := interner.restLength_lt (not_or.1 hindex).1 hempty
          apply ih _ (hrest ▸ hless) _ _ _ rfl
          intro a ha b hb
          rw [List.mem_filter] at ha hb
          exact take_succ_of_bucketOf (not_or.1 hindex).1 (hfront a ha.1 b hb.1)
            (of_decide_eq_true ha.2) (of_decide_eq_true hb.2)

theorem radixSortOccurrences_stable (interner : TermInterner) (occurrences : List α) :
    IsStableSort interner.termOf occurrences (radixSortOccurrences interner occurrences) :=
  radixSortedOccurrences_stable interner occurrences 0 fun _ _ _ _ => rfl

end radix

end KevinDb
