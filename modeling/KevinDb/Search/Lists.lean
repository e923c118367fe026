import KevinDb.Search.Packing

namespace KevinDb
set_option autoImplicit true
open Std

/-- A slice, whose elements take at most `isize::MAX` bytes. -/
structure Slice (α : Type) (size : Nat) where
  elements : List α
  bytes_lt : elements.length * size < 2 ^ 63

variable {previous : UInt32} {deltas values positions : List UInt32} {rows : List UInt32}

theorem saturatingAdd_saturatingSub {a b : UInt32} (h : b ≤ a) :
    saturatingAdd32 b (saturatingSub32 a b) = a := by
  have hle : b.toNat ≤ a.toNat := UInt32.le_iff_toNat_le.1 h
  have hlt := a.toNat_lt
  rw [saturatingSub32, if_pos h, saturatingAdd32, UInt32.toNat_sub_of_le _ _ h,
    Nat.add_sub_cancel' hle, Nat.min_eq_left (by omega), UInt32.ofNat_toNat]

/-- The values come back from their deltas if they do not fall. -/
theorem valuesFrom_deltasFrom (h : (previous :: values).Pairwise (· ≤ ·)) :
    valuesFrom previous (deltasFrom previous values) = values := by
  induction values generalizing previous with
  | nil => rfl
  | cons value values ih =>
    obtain ⟨hfirst, hrest⟩ := List.pairwise_cons.1 h
    rw [deltasFrom, valuesFrom,
      saturatingAdd_saturatingSub (hfirst value List.mem_cons_self), ih hrest]

theorem length_deltasFrom : (deltasFrom previous values).length = values.length := by
  induction values generalizing previous with
  | nil => rfl
  | cons value values ih => rw [deltasFrom, List.length_cons, List.length_cons, ih]

theorem valuesFrom_append (previous : UInt32) (deltas deltas' : List UInt32) :
    valuesFrom previous (deltas ++ deltas') = valuesFrom previous deltas ++
      valuesFrom ((valuesFrom previous deltas).getLast?.getD previous) deltas' := by
  induction deltas generalizing previous with
  | nil => rfl
  | cons delta deltas ih =>
    rw [List.cons_append, valuesFrom, valuesFrom, ih, List.getLast?_cons]
    rfl

theorem lt_two_pow_bitWidth (max : Nat) : max < 2 ^ bitWidth max := by
  rw [bitWidth]
  split
  · next h => rw [h]; decide
  · exact Nat.lt_log2_self

theorem bitWidth_le {max : Nat} (h : max < 2 ^ 32) : bitWidth max ≤ 32 := by
  rw [bitWidth]
  split
  · decide
  · next hzero => exact (Nat.log2_lt hzero).2 h

theorem foldl_max_bounds (block : List UInt32) : ∀ max, max < 2 ^ 32 →
    max ≤ block.foldl (fun max delta => Nat.max max delta.toNat) max ∧
      (∀ delta ∈ block, delta.toNat ≤ block.foldl (fun max delta => Nat.max max delta.toNat) max) ∧
      block.foldl (fun max delta => Nat.max max delta.toNat) max < 2 ^ 32 := by
  induction block with
  | nil => exact fun max h => ⟨Nat.le_refl max, nofun, h⟩
  | cons delta block ih =>
    intro max h
    obtain ⟨hle, hall, hlt⟩ := ih (Nat.max max delta.toNat) (Nat.max_lt.2 ⟨h, delta.toNat_lt⟩)
    rw [List.foldl_cons, List.forall_mem_cons]
    exact ⟨(Nat.le_max_left _ _).trans hle, ⟨(Nat.le_max_right _ _).trans hle, hall⟩, hlt⟩

theorem packedLen_blockLen {width : Nat} (hwidth : width ≤ 32) :
    packedLen blockLen width = (width * blockLen + 7) / 8 := by
  rw [packedLen, Nat.min_eq_left (by rw [blockLen]; omega), Nat.mul_comm]

/-- The full blocks are written, and read as the values that their deltas lead to. -/
theorem encodeBlocks_eq (blocks : Nat) : ∀ deltas : List UInt32,
    blocks * blockLen ≤ deltas.length →
      ∃ out, encodeBlocks blocks deltas = .ok out ∧ out.length ≤ 513 * blocks ∧
        (0 < blocks → out ≠ []) ∧
        ∀ previous, ReadsBytes (ByteReader.readBlocks blocks previous) out
          (valuesFrom previous (deltas.take (blocks * blockLen))) := by
  induction blocks with
  | zero =>
    intro deltas _
    refine ⟨[], rfl, Nat.le_refl 0, nofun, fun previous => ?_⟩
    rw [Nat.zero_mul, List.take_zero]
    exact .pure _
  | succ blocks ih =>
    intro deltas hdeltas
    rw [Nat.succ_mul] at hdeltas
    have hblock : (deltas.take blockLen).length = blockLen := by
      rw [List.length_take]
      omega
    obtain ⟨-, hall, hlt⟩ := foldl_max_bounds (deltas.take blockLen) 0 (by decide)
    generalize hwidth : bitWidth ((deltas.take blockLen).foldl
      (fun max delta => Nat.max max delta.toNat) 0) = width
    have hwidth_le : width ≤ 32 := hwidth ▸ bitWidth_le hlt
    have hwithin : ∀ delta ∈ deltas.take blockLen, delta.toNat < 2 ^ width :=
      fun delta hdelta => (hall delta hdelta).trans_lt (hwidth ▸ lt_two_pow_bitWidth _)
    obtain ⟨packed, hpack, hlength, hunpack⟩ := unpackBits_packBits hwidth_le hwithin
    obtain ⟨out, hout, houtLength, -, hreads⟩ := ih (deltas.drop blockLen) (by
      rw [List.length_drop]
      omega)
    rw [hblock] at hlength hunpack
    have hbyte : (UInt8.ofNat width).toNat = width := by
      rw [UInt8.toNat_ofNat']
      omega
    refine ⟨UInt8.ofNat width :: packed ++ out, ?_, ?_, fun _ => nofun, fun previous => ?_⟩
    · rw [encodeBlocks, hwidth, hpack, Outcome.ok_bind, hout]
      rfl
    · have hmul : width * blockLen ≤ 32 * blockLen := Nat.mul_le_mul_right _ hwidth_le
      rw [List.cons_append, List.length_cons, List.length_append, hlength]
      rw [blockLen] at *
      omega
    · have hsplit : deltas.take ((blocks + 1) * blockLen) =
          deltas.take blockLen ++ (deltas.drop blockLen).take (blocks * blockLen) := by
        rw [Nat.succ_mul, Nat.add_comm, List.take_add]
      rw [hsplit, valuesFrom_append, List.cons_append, ← List.singleton_append,
        ByteReader.readBlocks]
      apply (ByteReader.reads_u8 _).bind
      rw [hbyte, packedLen_blockLen hwidth_le, ← hlength]
      apply (ByteReader.reads_slice packed).bind
      rw [← List.nil_append out]
      apply (ReadsBytes.lift hunpack).bind
      rw [← List.append_nil out]
      exact (hreads _).bind (.pure _)

/-- The deltas behind the blocks are read one by one. -/
theorem reads_tail (deltas : List UInt32) : ∀ previous,
    ReadsBytes (ByteReader.readTail deltas.length previous)
      (deltas.flatMap fun delta => putVint delta.toNat) (valuesFrom previous deltas) := by
  induction deltas with
  | nil => exact fun _ => .pure _
  | cons delta deltas ih =>
    intro previous
    rw [List.length_cons, List.flatMap_cons, ByteReader.readTail, valuesFrom]
    apply (ByteReader.reads_vint delta).bind
    dsimp only
    rw [← List.append_nil (deltas.flatMap _)]
    exact (ih _).bind (.pure _)

theorem length_putVint_le : ∀ k value, value < 128 ^ (k + 1) → (putVint value).length ≤ k + 1 := by
  intro k
  induction k with
  | zero =>
    intro value h
    rw [putVint_of_lt (by simpa using h)]
    exact Nat.le_refl 1
  | succ k ih =>
    intro value h
    by_cases hsmall : value < 128
    · rw [putVint_of_lt hsmall]
      exact Nat.le_add_left 1 _
    · rw [putVint_of_le (by omega), List.length_cons]
      rw [Nat.pow_succ] at h
      exact Nat.succ_le_succ (ih _ (Nat.div_lt_of_lt_mul (by omega)))

theorem length_putVint_u32 (value : UInt32) : (putVint value.toNat).length ≤ 5 :=
  length_putVint_le 4 _ (value.toNat_lt.trans (by decide))

/-- A list is written without a panic, in at most five bytes for each value, and is read as the
values that its deltas lead to. -/
theorem encodeU32List_eq (values : List UInt32) :
    ∃ out, encodeU32List values = .ok out ∧ out.length ≤ 5 * values.length ∧
      (blockLen ≤ values.length → out ≠ []) ∧
      ReadsBytes (ByteReader.readU32List values.length) out (valuesFrom 0 (deltasFrom 0 values)) := by
  have hlength : (deltasFrom 0 values).length = values.length := length_deltasFrom
  have hencode : ∀ out, encodeBlocks ((deltasFrom 0 values).length / blockLen)
      (deltasFrom 0 values) = .ok out → encodeU32List values = .ok (out ++
        ((deltasFrom 0 values).drop ((deltasFrom 0 values).length / blockLen * blockLen)).flatMap
          fun delta => putVint delta.toNat) := by
    intro out hout
    rw [encodeU32List, hout]
    rfl
  generalize deltasFrom 0 values = deltas at *
  have hfull : deltas.length / blockLen * blockLen ≤ deltas.length := Nat.div_mul_le_self _ _
  have hmod : (deltas.drop (deltas.length / blockLen * blockLen)).length =
      values.length % blockLen := by
    have hsplit := Nat.div_add_mod' deltas.length blockLen
    rw [List.length_drop, ← hlength]
    omega
  obtain ⟨out, hout, houtLength, hne, hreads⟩ := encodeBlocks_eq _ _ hfull
  refine ⟨out ++ (deltas.drop (deltas.length / blockLen * blockLen)).flatMap
    fun delta => putVint delta.toNat, hencode out hout, ?_, ?_, ?_⟩
  · have htail : ∀ rest : List UInt32,
        (rest.flatMap fun delta => putVint delta.toNat).length ≤ 5 * rest.length := by
      intro rest
      induction rest with
      | nil => exact Nat.le_refl 0
      | cons delta rest ih =>
        have hdelta := length_putVint_u32 delta
        rw [List.flatMap_cons, List.length_append, List.length_cons]
        omega
    have hrest := htail (deltas.drop (deltas.length / blockLen * blockLen))
    have hsplit := Nat.div_add_mod' deltas.length blockLen
    rw [List.length_append]
    rw [hmod, ← hlength] at hrest
    rw [← hlength]
    rw [blockLen] at *
    omega
  · intro hblock hnil
    have hpos : 0 < deltas.length / blockLen :=
      Nat.div_pos (hlength ▸ hblock) (by decide)
    exact hne hpos (List.append_eq_nil_iff.1 hnil).1
  · rw [ByteReader.readU32List, ← hlength]
    apply (hreads 0).bind
    have htail := reads_tail (deltas.drop (deltas.length / blockLen * blockLen))
      ((valuesFrom 0 (deltas.take (deltas.length / blockLen * blockLen))).getLast?.getD 0)
    rw [hmod, ← hlength] at htail
    rw [← List.append_nil (List.flatMap _ _)]
    apply htail.bind
    rw [← valuesFrom_append, List.take_append_drop]
    exact .pure _

/-- What is read and ends with the bytes is decoded. -/
theorem readFrom_done {read : Read α} {bytes : List UInt8} {value : α}
    (h : ReadsBytes read bytes value) (hlength : bytes.length < 2 ^ 64) :
    (readFrom bytes do
      let value ← read
      ByteReader.expectDone
      return value) = .ok value := by
  have hread := h [] [] (by rwa [List.nil_append, List.append_nil])
  rw [List.nil_append, List.append_nil, List.length_nil] at hread
  have hdone : (ByteReader.expectDone.run ⟨bytes, bytes.length⟩) = .ok ((), ⟨bytes, bytes.length⟩) := by
    simp only [ByteReader.expectDone, StateT.run_bind, StateT.run_get, Outcome.pure_eq,
      Outcome.ok_bind]
    rw [if_neg (by simp)]
    rfl
  rw [readFrom, ByteReader.new, StateT.run_bind, hread, Outcome.ok_bind, StateT.run_bind, hdone]
  rfl

/-- A list that does not fall comes back from its encoding. -/
theorem decodeU32List_encodeU32List (values : Slice UInt32 4)
    (hsorted : values.elements.Pairwise (· ≤ ·)) :
    ∃ bytes, encodeU32List values.elements = .ok bytes ∧
      decodeU32List bytes values.elements.length = .ok values.elements := by
  obtain ⟨out, hout, hlength, -, hreads⟩ := encodeU32List_eq values.elements
  have hbytes := values.bytes_lt
  rw [valuesFrom_deltasFrom (List.pairwise_cons.2 ⟨fun _ _ => UInt32.zero_le, hsorted⟩)] at hreads
  exact ⟨out, hout, readFrom_done hreads (by omega)⟩

/-- The positions of a row. -/
def positionsOf (positionsByRow : Table UInt32 (List UInt32)) (row : UInt32) : List UInt32 :=
  positionsByRow[row]?.getD []

/-- Decoding gives the positions of the rows back. -/
def PositionsRoundTrip (rows : List UInt32) (positionsByRow : Table UInt32 (List UInt32))
    (bytes : List UInt8) : Prop :=
  ∃ decoded, decodePositions bytes rows = .ok decoded ∧ ∀ row, decoded[row]? =
    if row ∈ rows then some (positionsOf positionsByRow row) else none

theorem numberSet_of_ascending (h : values.Pairwise (· < ·)) : numberSet values = values := by
  have hnodup : values.Nodup := h.imp UInt32.ne_of_lt
  rw [numberSet, List.Pairwise.insertionSort_eq (h.imp UInt32.le_of_lt), hnodup.dedup]

variable {positionsByRow table : Table UInt32 (List UInt32)}

/-- Positions are written without a panic. -/
theorem encodePositions_eq (rows : List UInt32) (positionsByRow : Table UInt32 (List UInt32)) :
    ∃ out, encodePositions rows positionsByRow = .ok out := by
  induction rows with
  | nil => exact ⟨[], rfl⟩
  | cons row rows ih =>
    obtain ⟨out, hout⟩ := ih
    obtain ⟨encoded, hencoded, -⟩ := encodeU32List_eq (positionsByRow[row]?.getD [])
    refine ⟨putVint ((positionsByRow[row]?.getD []).length % 2 ^ 32) ++ encoded ++ out, ?_⟩
    rw [encodePositions, hencoded, Outcome.ok_bind, hout]
    rfl

theorem encodePositions_cons {row : UInt32} {out : List UInt8}
    (h : encodePositions (row :: rows) positionsByRow = .ok out) :
    ∃ encoded rest, encodeU32List (positionsOf positionsByRow row) = .ok encoded ∧
      encodePositions rows positionsByRow = .ok rest ∧
      out = putVint ((positionsOf positionsByRow row).length % 2 ^ 32) ++ encoded ++ rest := by
  rw [encodePositions] at h
  obtain ⟨encoded, hencoded, h⟩ := Outcome.bind_eq_ok_iff.1 h
  obtain ⟨rest, hrest, h⟩ := Outcome.bind_eq_ok_iff.1 h
  cases h
  exact ⟨encoded, rest, hencoded, hrest, rfl⟩

/-- The table that reading the positions of some rows leads to. -/
def insertPositions (positionsByRow : Table UInt32 (List UInt32)) (rows : List UInt32)
    (table : Table UInt32 (List UInt32)) : Table UInt32 (List UInt32) :=
  rows.foldl (fun table row => table.insert row (positionsOf positionsByRow row)) table

theorem get_insertPositions (rows : List UInt32) (table : Table UInt32 (List UInt32))
    (row : UInt32) : (insertPositions positionsByRow rows table)[row]? =
      if row ∈ rows then some (positionsOf positionsByRow row) else table[row]? := by
  induction rows generalizing table with
  | nil => rfl
  | cons first rows ih =>
    rw [insertPositions, List.foldl_cons, ← insertPositions, ih, Table.get_insert]
    by_cases hfirst : first = row
    · simp [hfirst]
    · simp [hfirst, Ne.symm hfirst]

/-- Rows whose count of positions fits into 32 bits are read back. -/
theorem reads_positions (hpositions : ∀ row ∈ rows,
      (positionsOf positionsByRow row).Pairwise (· < ·) ∧
        (positionsOf positionsByRow row).length < 2 ^ 32) :
    ∀ {out : List UInt8} (table : Table UInt32 (List UInt32)),
      encodePositions rows positionsByRow = .ok out →
        ReadsBytes (readPositions rows table) out (insertPositions positionsByRow rows table) := by
  induction rows with
  | nil =>
    intro out table h
    cases h
    exact .pure _
  | cons row rows ih =>
    intro out table h
    obtain ⟨⟨hascending, hlength⟩, hrows⟩ := List.forall_mem_cons.1 hpositions
    obtain ⟨encoded, rest, hencoded, hrest, rfl⟩ := encodePositions_cons h
    obtain ⟨out, hout, -, -, hreads⟩ := encodeU32List_eq (positionsOf positionsByRow row)
    rw [hencoded] at hout
    cases hout
    have hsorted := hascending.imp UInt32.le_of_lt
    rw [valuesFrom_deltasFrom (List.pairwise_cons.2 ⟨fun _ _ => UInt32.zero_le, hsorted⟩)] at hreads
    have hcount : (UInt32.ofNat (positionsOf positionsByRow row).length).toNat =
        (positionsOf positionsByRow row).length :=
      UInt32.toNat_ofNat_of_lt' hlength
    have hvint := ByteReader.reads_vint (UInt32.ofNat (positionsOf positionsByRow row).length)
    rw [hcount] at hvint
    rw [Nat.mod_eq_of_lt hlength, List.append_assoc, readPositions]
    apply hvint.bind
    rw [hcount]
    apply hreads.bind
    rw [numberSet_of_ascending hascending]
    exact ih hrows _ hrest

theorem decodePositions_encodePositions {out : Slice UInt8 1}
    (hout : encodePositions rows positionsByRow = .ok out.elements)
    (hpositions : ∀ row ∈ rows, (positionsOf positionsByRow row).Pairwise (· < ·) ∧
      (positionsOf positionsByRow row).length < 2 ^ 32) :
    PositionsRoundTrip rows positionsByRow out.elements := by
  have hbytes := out.bytes_lt
  refine ⟨_, readFrom_done (reads_positions hpositions ∅ hout) (by omega), fun row => ?_⟩
  rw [get_insertPositions]
  rfl

/-- There are no more ascending numbers than numbers. -/
theorem length_le_of_ascending (h : values.Pairwise (· < ·)) : values.length ≤ 2 ^ 32 := by
  have hnodup : (values.map UInt32.toNat).Nodup :=
    List.Nodup.map (fun _ _ => UInt32.toNat_inj.1) (h.imp UInt32.ne_of_lt)
  have hsubset : values.map UInt32.toNat ⊆ List.range (2 ^ 32) := by
    intro n hn
    obtain ⟨value, -, rfl⟩ := List.mem_map.1 hn
    exact List.mem_range.2 value.toNat_lt
  have hle := (hnodup.subperm hsubset).length_le
  rwa [List.length_map, List.length_range] at hle

/-- Reading the positions of some rows leaves those of the others. -/
theorem get_of_readPositions {row : UInt32} (hrow : row ∉ rows) : ∀ {table decoded : Table UInt32
    (List UInt32)} {reader reader' : ByteReader},
      (readPositions rows table).run reader = .ok (decoded, reader') →
        decoded[row]? = table[row]? := by
  induction rows with
  | nil =>
    intro table decoded reader reader' h
    cases h
    rfl
  | cons first rows ih =>
    intro table decoded reader reader' h
    rw [List.mem_cons, not_or] at hrow
    rw [readPositions, StateT.run_bind] at h
    obtain ⟨⟨count, reader₁⟩, -, h⟩ := Outcome.bind_eq_ok_iff.1 h
    rw [StateT.run_bind] at h
    obtain ⟨⟨positions, reader₂⟩, -, h⟩ := Outcome.bind_eq_ok_iff.1 h
    rw [ih hrow.2 h, Table.get_insert, if_neg (Ne.symm hrow.1)]

theorem readPositions_cons (row : UInt32) (rows : List UInt32)
    (table : Table UInt32 (List UInt32)) :
    readPositions (row :: rows) table = readPositions [row] table >>= readPositions rows := by
  simp only [readPositions, bind_assoc, pure_bind]

/-- A count of 2^32 is written as 0, so that the positions are not read back. -/
theorem length_lt_of_readPositions (hrows : rows.Pairwise (· < ·))
    (hpositions : ∀ row ∈ rows, (positionsOf positionsByRow row).Pairwise (· < ·)) :
    ∀ {out front rest : List UInt8} {table decoded : Table UInt32 (List UInt32)}
      {reader : ByteReader}, encodePositions rows positionsByRow = .ok out →
        (front ++ out ++ rest).length < 2 ^ 64 →
        (readPositions rows table).run ⟨front ++ out ++ rest, front.length⟩ =
          .ok (decoded, reader) →
        (∀ row ∈ rows, decoded[row]? = some (positionsOf positionsByRow row)) →
          ∀ row ∈ rows, (positionsOf positionsByRow row).length < 2 ^ 32 := by
  induction rows with
  | nil =>
    intro out front rest table decoded reader _ _ _ _ row hrow
    cases hrow
  | cons row rows ih =>
    intro out front rest table decoded reader hout hlength hrun hdecoded
    obtain ⟨hfirst, hrows⟩ := List.pairwise_cons.1 hrows
    obtain ⟨hascending, hpositions⟩ := List.forall_mem_cons.1 hpositions
    obtain ⟨hrow, hdecoded⟩ := List.forall_mem_cons.1 hdecoded
    have hnot : row ∉ rows := fun hmem => UInt32.lt_irrefl row (hfirst row hmem)
    obtain ⟨encoded, tail, hencoded, htail, rfl⟩ := encodePositions_cons hout
    by_cases hfits : (positionsOf positionsByRow row).length < 2 ^ 32
    · have hsplit : encodePositions [row] positionsByRow =
          .ok (putVint ((positionsOf positionsByRow row).length % 2 ^ 32) ++ encoded) := by
        rw [encodePositions, ← positionsOf, hencoded]
        exact congrArg Outcome.ok (List.append_nil _)
      have hrow : ∀ row' ∈ [row], (positionsOf positionsByRow row').Pairwise (· < ·) ∧
          (positionsOf positionsByRow row').length < 2 ^ 32 := by
        rw [List.forall_mem_singleton]
        exact ⟨hascending, hfits⟩
      have hone := reads_positions hrow table hsplit front (tail ++ rest)
      have hbytes : front ++ (putVint ((positionsOf positionsByRow row).length % 2 ^ 32) ++ encoded ++
          tail) ++ rest = front ++ (putVint ((positionsOf positionsByRow row).length % 2 ^ 32) ++
            encoded) ++ (tail ++ rest) := by
        simp only [List.append_assoc]
      rw [hbytes] at hlength hrun
      rw [readPositions_cons, StateT.run_bind, hone hlength, Outcome.ok_bind] at hrun
      rw [← List.append_assoc _ tail] at hlength hrun
      exact List.forall_mem_cons.2 ⟨hfits, ih hrows hpositions htail hlength hrun hdecoded⟩
    · have hzero : (positionsOf positionsByRow row).length % 2 ^ 32 = 0 := by
        have hle := length_le_of_ascending hascending
        omega
      have hvint := ByteReader.reads_vint 0 front (encoded ++ tail ++ rest)
      have hbytes : front ++ (putVint ((positionsOf positionsByRow row).length % 2 ^ 32) ++ encoded ++
          tail) ++ rest = front ++ putVint (0 : UInt32).toNat ++ (encoded ++ tail ++ rest) := by
        rw [hzero]
        simp only [List.append_assoc]
        rfl
      rw [hbytes] at hlength hrun
      have hnone : ByteReader.readU32List (UInt32.toNat 0) = pure [] := rfl
      rw [readPositions, StateT.run_bind, hvint hlength, Outcome.ok_bind] at hrun
      dsimp only at hrun
      rw [hnone, pure_bind] at hrun
      have hempty : decoded[row]? = some [] := by
        rw [get_of_readPositions hnot hrun, Table.get_insert, if_pos rfl]
        rfl
      rw [hempty, Option.some.injEq] at hrow
      rw [← hrow] at hfits
      exact absurd (by decide) hfits

/-- Positions are read back exactly if no row has 2^32 of them. -/
theorem round_trip_iff {bytes : Slice UInt8 1}
    (hbytes : encodePositions rows positionsByRow = .ok bytes.elements)
    (hrows : rows.Pairwise (· < ·))
    (hpositions : ∀ row ∈ rows, (positionsOf positionsByRow row).Pairwise (· < ·)) :
    PositionsRoundTrip rows positionsByRow bytes.elements ↔
      ∀ row ∈ rows, (positionsOf positionsByRow row).length < 2 ^ 32 := by
  constructor
  · rintro ⟨decoded, hdecode, hdecoded⟩
    rw [decodePositions, readFrom] at hdecode
    obtain ⟨⟨table, reader⟩, hrun, hdecode⟩ := Outcome.bind_eq_ok_iff.1 hdecode
    cases hdecode
    rw [StateT.run_bind] at hrun
    obtain ⟨⟨table', reader'⟩, hread, hrun⟩ := Outcome.bind_eq_ok_iff.1 hrun
    rw [StateT.run_bind] at hrun
    obtain ⟨_, -, hdone⟩ := Outcome.bind_eq_ok_iff.1 hrun
    cases hdone
    have hlength := bytes.bytes_lt
    have hreader : ByteReader.new bytes.elements = ⟨[] ++ bytes.elements ++ [], 0⟩ := by
      rw [List.nil_append, List.append_nil]
      rfl
    rw [hreader] at hread
    refine length_lt_of_readPositions hrows hpositions hbytes ?_ hread fun row hrow => ?_
    · rw [List.nil_append, List.append_nil]
      omega
    · rw [hdecoded row, if_pos hrow]
  · intro hlengths
    exact decodePositions_encodePositions hbytes fun row hrow =>
      ⟨hpositions row hrow, hlengths row hrow⟩

/-- Lists come back from their encoding, and positions do exactly if no row has 2^32 of them; both
are encoded without a panic. -/
theorem lists_round_trip_iff (values : Slice UInt32 4) (rows : List UInt32)
    (positionsByRow : Table UInt32 (List UInt32)) :
    (values.elements.Pairwise (· ≤ ·) →
      ∃ bytes, encodeU32List values.elements = .ok bytes ∧
        decodeU32List bytes values.elements.length = .ok values.elements) ∧
    (∃ bytes, encodePositions rows positionsByRow = .ok bytes) ∧
    ∀ bytes : Slice UInt8 1, encodePositions rows positionsByRow = .ok bytes.elements →
      rows.Pairwise (· < ·) →
      (∀ row ∈ rows, (positionsOf positionsByRow row).Pairwise (· < ·)) →
        (PositionsRoundTrip rows positionsByRow bytes.elements ↔
          ∀ row ∈ rows, (positionsOf positionsByRow row).length < 2 ^ 32) :=
  ⟨decodeU32List_encodeU32List values, encodePositions_eq rows positionsByRow,
    fun _ hbytes hrows hpositions => round_trip_iff hbytes hrows hpositions⟩

theorem lists_round_trip_small :
    (∃ bytes, encodeU32List [3, 3, 300] = .ok bytes ∧ decodeU32List bytes 3 = .ok [3, 3, 300]) ∧
    PositionsRoundTrip [4] ((∅ : Table UInt32 (List UInt32)).insert 4 [0, 200])
      [2, 0, 200, 1] := by
  have hrow : positionsOf ((∅ : Table UInt32 (List UInt32)).insert 4 [0, 200]) 4 = [0, 200] := by
    rw [positionsOf, Table.get_insert, if_pos rfl, Option.getD_some]
  have hbytes : encodePositions [4] ((∅ : Table UInt32 (List UInt32)).insert 4 [0, 200]) =
      .ok [2, 0, 200, 1] := by
    have hlist : encodeU32List [0, 200] = .ok (putVint 0 ++ putVint 200) := by
      have hdeltas : deltasFrom 0 [0, 200] = [0, 200] := by decide
      rw [encodeU32List, hdeltas]
      exact congrArg (fun tail => Outcome.ok (putVint 0 ++ tail)) (List.append_nil _)
    have hvint : putVint 200 = [200, 1] := by
      rw [putVint_of_le (by decide), putVint_of_lt (by decide)]
      rfl
    have hzero : putVint 0 = [0] := putVint_of_lt (by decide)
    have htwo : putVint 2 = [2] := putVint_of_lt (by decide)
    have hcount : ([0, 200] : List UInt32).length % 2 ^ 32 = 2 := rfl
    rw [encodePositions, ← positionsOf, hrow, hlist, hvint, hzero, Outcome.ok_bind,
      encodePositions, Outcome.ok_bind, hcount, htwo]
    rfl
  have h := lists_round_trip_iff ⟨[3, 3, 300], by decide⟩ [4]
    ((∅ : Table UInt32 (List UInt32)).insert 4 [0, 200])
  refine ⟨h.1 (by decide), ?_⟩
  apply (h.2.2 ⟨[2, 0, 200, 1], by decide⟩ hbytes (List.pairwise_singleton _ _) ?_).2
  · rw [List.forall_mem_singleton, hrow]
    decide
  · rw [List.forall_mem_singleton, hrow]
    decide

/-- All numbers, in order. -/
def allNumbers : List UInt32 := (List.range (2 ^ 32)).map UInt32.ofNat

/-- The positions of a row that has one at every number. -/
def everyPosition : Table UInt32 (List UInt32) := (∅ : Table UInt32 (List UInt32)).insert 0 allNumbers

theorem length_allNumbers : allNumbers.length = 2 ^ 32 := by
  rw [allNumbers, List.length_map, List.length_range]

theorem allNumbers_ascending : allNumbers.Pairwise (· < ·) := by
  rw [allNumbers, List.pairwise_map]
  apply List.pairwise_lt_range.imp_of_mem
  intro m n hm hn hlt
  rw [UInt32.lt_iff_toNat_lt, UInt32.toNat_ofNat_of_lt' (List.mem_range.1 hm),
    UInt32.toNat_ofNat_of_lt' (List.mem_range.1 hn)]
  exact hlt

/-- As many positions of a row as there are numbers are written under the count 0. -/
theorem positions_lost (hpositions : positions.Pairwise (· < ·)) (hlength : positions.length = 2 ^ 32) :
    ∃ bytes : Slice UInt8 1,
      encodePositions [0] ((∅ : Table UInt32 (List UInt32)).insert 0 positions) =
          .ok bytes.elements ∧
        ¬ PositionsRoundTrip [0] ((∅ : Table UInt32 (List UInt32)).insert 0 positions)
          bytes.elements := by
  have hrow : positionsOf ((∅ : Table UInt32 (List UInt32)).insert 0 positions) 0 = positions := by
    rw [positionsOf, Table.get_insert, if_pos rfl, Option.getD_some]
  obtain ⟨out, hout⟩ := encodePositions_eq [0] ((∅ : Table UInt32 (List UInt32)).insert 0 positions)
  have hbytes : out.length * 1 < 2 ^ 63 := by
    obtain ⟨encoded, rest, hencoded, hrest, rfl⟩ := encodePositions_cons hout
    obtain ⟨out, hout, hle, -⟩ := encodeU32List_eq positions
    rw [hrow, hout] at hencoded
    cases hencoded
    cases hrest
    rw [hrow, hlength, Nat.mod_self, putVint_of_lt (by decide)]
    rw [hlength] at hle
    simp only [List.length_append, List.length_singleton, List.length_nil]
    omega
  refine ⟨⟨out, hbytes⟩, hout, fun htrip => ?_⟩
  have hlost := ((round_trip_iff hout (by simp) (by simpa [hrow] using hpositions)).1 htrip) 0
    List.mem_cons_self
  rw [hrow, hlength] at hlost
  exact Nat.lt_irrefl _ hlost

/-- 2^32 positions of a row are not read back. -/
theorem all_positions_lost :
    allNumbers.Pairwise (· < ·) ∧ ∃ bytes : Slice UInt8 1,
      encodePositions [0] ((∅ : Table UInt32 (List UInt32)).insert 0 allNumbers) =
          .ok bytes.elements ∧
        ¬ PositionsRoundTrip [0] ((∅ : Table UInt32 (List UInt32)).insert 0 allNumbers)
          bytes.elements :=
  ⟨allNumbers_ascending, positions_lost allNumbers_ascending length_allNumbers⟩

end KevinDb
