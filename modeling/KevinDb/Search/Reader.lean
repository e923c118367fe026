import KevinDb.Lib.Bytes
import KevinDb.Lib.Outcome

namespace KevinDb
set_option autoImplicit true

/-- `checked_add` of sizes. -/
def checkedAdd (a b : Nat) (message : String) : Outcome Nat :=
  if a + b < 2 ^ 64 then .ok (a + b) else .error message

/-- An addition in a machine type with so many values, which panics if it overflows. -/
def addBelow (bound a b : Nat) : Outcome Nat := if a + b < bound then .ok (a + b) else .panic

/-- A subtraction of machine integers. -/
def subWithin (a b : Nat) : Outcome Nat := if b ≤ a then .ok (a - b) else .panic

/-- A shift to the left in a machine type of so many bits. -/
def shiftLeft (width value shift : Nat) : Outcome Nat :=
  if shift < width then .ok (value <<< shift % 2 ^ width) else .panic

/-- A shift to the right in a machine type of so many bits. -/
def shiftRight (width value shift : Nat) : Outcome Nat :=
  if shift < width then .ok (value >>> shift) else .panic

/-- `bytes[start..stop]`. -/
def sliceOf (bytes : List UInt8) (start stop : Nat) : Outcome (List UInt8) :=
  if start ≤ stop ∧ stop ≤ bytes.length then .ok ((bytes.drop start).take (stop - start))
  else .panic

structure ByteReader where
  bytes : List UInt8
  offset : Nat

/-- A function that reads on with a reader. -/
abbrev Read := StateT ByteReader Outcome

namespace ByteReader

def new (bytes : List UInt8) : ByteReader := ⟨bytes, 0⟩

def bail (message : String) : Read α := StateT.lift (.error message)

def readSlice (len : Nat) : Read (List UInt8) := do
  let reader ← get
  let stop ← checkedAdd reader.offset len "search index offset overflow"
  if stop > reader.bytes.length then bail "truncated search index"
  else
    let slice ← sliceOf reader.bytes reader.offset stop
    set { reader with offset := stop }
    return slice

def readU8 : Read UInt8 := do
  let reader ← get
  match reader.bytes[reader.offset]? with
  | none => bail "truncated search index byte"
  | some byte =>
    let offset ← addBelow (2 ^ 64) reader.offset 1
    set { reader with offset }
    return byte

/-- `from_le_bytes` of a slice, which must be as long as expected. -/
def expectLe (width : Nat) (bytes : List UInt8) : Outcome Nat :=
  if bytes.length = width then .ok (leValue bytes) else .panic

def readU32 : Read UInt32 := do
  let bytes ← readSlice 4
  return UInt32.ofNat (← expectLe 4 bytes)

def readU64 : Read UInt64 := do
  let bytes ← readSlice 8
  return UInt64.ofNat (← expectLe 8 bytes)

def readVec : Read (List UInt8) := do
  let len ← readU32
  readSlice len.toNat

/-- The loop of `read_vint` from a shift on. -/
def readVintFrom (shift : Nat) (value : UInt32) : Read UInt32 := do
  let byte ← readU8
  let value := value ||| UInt32.ofNat (← shiftLeft 32 (byte &&& 127).toNat shift)
  if byte &&& 128 = 0 then return value
  else if shift + 7 ≥ 32 then bail "invalid vint in search index"
  else readVintFrom (shift + 7) value
termination_by 32 - shift

def readVint : Read UInt32 := readVintFrom 0 0

def expectBytes (expected : List UInt8) : Read Unit := do
  let actual ← readSlice expected.length
  if actual ≠ expected then bail "invalid search index magic"

def expectDone : Read Unit := do
  let reader ← get
  if reader.offset ≠ reader.bytes.length then bail "search index has trailing bytes"

end ByteReader

/-- After some bytes, a function reads some more and gives a value, whatever comes next. -/
def ReadsBytes (read : Read α) (bytes : List UInt8) (value : α) : Prop :=
  ∀ front rest, (front ++ bytes ++ rest).length < 2 ^ 64 →
    read.run ⟨front ++ bytes ++ rest, front.length⟩ =
      .ok (value, ⟨front ++ bytes ++ rest, (front ++ bytes).length⟩)

/-- A reader is within its bytes, of which there are as many as a slice can have. -/
structure ByteReader.Valid (reader : ByteReader) : Prop where
  offset_le : reader.offset ≤ reader.bytes.length
  length_lt : reader.bytes.length < 2 ^ 63

/-- A function reads on from a valid reader without a panic, and what it reads is of a kind. -/
def ReadsSafely (read : Read α) (P : α → Prop) : Prop :=
  ∀ reader : ByteReader, reader.Valid → (read.run reader).Returns fun result =>
    P result.1 ∧ result.2.Valid ∧ result.2.bytes = reader.bytes

section rules

variable {read : Read α} {next : α → Read β} {bytes bytes' : List UInt8} {value : α} {result : β}
  {P Q : α → Prop} {R : β → Prop}

theorem ReadsBytes.pure (value : α) : ReadsBytes (pure value) [] value := by
  intro front rest _
  rw [List.append_nil]
  rfl

theorem ReadsBytes.bind (h : ReadsBytes read bytes value) (hnext : ReadsBytes (next value) bytes' result) :
    ReadsBytes (read >>= next) (bytes ++ bytes') result := by
  intro front rest hlength
  have hread := h front (bytes' ++ rest)
  have hnext := hnext (front ++ bytes) rest
  rw [← List.append_assoc] at hread hlength ⊢
  rw [StateT.run_bind, hread hlength]
  exact hnext hlength

theorem ReadsBytes.map (h : ReadsBytes read bytes value) (f : α → β) :
    ReadsBytes (f <$> read) bytes (f value) := by
  intro front rest hlength
  rw [StateT.run_map, h front rest hlength]
  rfl

theorem ReadsSafely.mono (h : ReadsSafely read P) (hQ : ∀ value, P value → Q value) :
    ReadsSafely read Q :=
  fun reader hreader => (h reader hreader).mono fun _ hresult => ⟨hQ _ hresult.1, hresult.2⟩

theorem ReadsSafely.pure (h : P value) : ReadsSafely (pure value) P :=
  fun _ hreader => ⟨h, hreader, rfl⟩

theorem ReadsSafely.bail (message : String) : ReadsSafely (ByteReader.bail message) P :=
  fun _ _ => trivial

theorem ReadsSafely.bind (h : ReadsSafely read P) (hnext : ∀ value, P value →
    ReadsSafely (next value) R) : ReadsSafely (read >>= next) R := by
  intro reader hreader
  rw [StateT.run_bind]
  apply (h reader hreader).bind
  rintro ⟨value, reader'⟩ ⟨hvalue, hvalid, hbytes⟩
  apply (hnext value hvalue reader' hvalid).mono
  rintro result ⟨hresult, hvalid, hbytes'⟩
  exact ⟨hresult, hvalid, hbytes'.trans hbytes⟩

/-- A computation that reads nothing. -/
theorem ReadsSafely.lift {outcome : Outcome α} (h : outcome.Returns P) :
    ReadsSafely (liftM outcome : Read α) P := by
  intro reader hreader
  change (outcome >>= fun value => Outcome.ok (value, reader)).Returns _
  exact h.bind fun value hvalue => ⟨hvalue, hreader, rfl⟩

theorem ReadsBytes.lift {outcome : Outcome α} (h : outcome = .ok value) :
    ReadsBytes (liftM outcome : Read α) [] value := by
  intro front rest _
  rw [h, List.append_nil]
  rfl

namespace ByteReader

theorem reads_slice (bytes : List UInt8) : ReadsBytes (readSlice bytes.length) bytes bytes := by
  intro front rest hlength
  simp only [List.length_append] at hlength
  have hstop : checkedAdd front.length bytes.length "search index offset overflow" =
      .ok (front.length + bytes.length) :=
    if_pos (by omega)
  have hslice : sliceOf (front ++ bytes ++ rest) front.length (front.length + bytes.length) =
      .ok bytes := by
    rw [sliceOf, if_pos (by simp only [List.length_append]; omega), List.append_assoc,
      List.drop_left, Nat.add_sub_cancel_left, List.take_left]
  have hwithin : ¬ front.length + bytes.length > (front ++ bytes ++ rest).length := by
    simp only [List.length_append]
    omega
  simp only [readSlice, StateT.run_bind, StateT.run_get, Outcome.pure_eq, Outcome.ok_bind, hstop,
    StateT.run_monadLift, monadLift_self, bind_pure_comp, if_neg hwithin, hslice]
  rw [List.length_append]
  rfl

theorem safe_slice (len : Nat) : ReadsSafely (readSlice len) fun slice => slice.length = len := by
  intro reader hreader
  obtain ⟨hoffset, hlength⟩ := hreader
  simp only [readSlice, StateT.run_bind, StateT.run_get, Outcome.pure_eq, Outcome.ok_bind,
    StateT.run_monadLift, monadLift_self, bind_pure_comp, checkedAdd]
  split
  · simp only [Outcome.ok_bind]
    split
    · exact trivial
    next hwithin =>
      rw [sliceOf, if_pos (by omega)]
      refine ⟨?_, ⟨Nat.le_of_not_gt hwithin, hlength⟩, rfl⟩
      change ((reader.bytes.drop reader.offset).take
        (reader.offset + len - reader.offset)).length = len
      rw [List.length_take, List.length_drop]
      omega
  · exact trivial

theorem reads_u8 (byte : UInt8) : ReadsBytes readU8 [byte] byte := by
  intro front rest hlength
  simp only [List.length_append, List.length_singleton] at hlength
  have hget : (front ++ [byte] ++ rest)[front.length]? = some byte := by simp
  simp only [readU8, StateT.run_bind, StateT.run_get, Outcome.pure_eq, Outcome.ok_bind, hget,
    addBelow, if_pos (by omega : front.length + 1 < 2 ^ 64)]
  rw [List.length_append]
  rfl

theorem safe_u8 : ReadsSafely readU8 fun _ => True := by
  intro reader hreader
  obtain ⟨hoffset, hlength⟩ := hreader
  simp only [readU8, StateT.run_bind, StateT.run_get, Outcome.pure_eq, Outcome.ok_bind]
  split
  · exact trivial
  next byte hget =>
    obtain ⟨hbound, -⟩ := List.getElem?_eq_some_iff.1 hget
    rw [StateT.run_bind, addBelow, if_pos (by omega)]
    exact ⟨trivial, ⟨hbound, hlength⟩, rfl⟩

theorem reads_le (width : Nat) (value : Nat) (hvalue : value < 256 ^ width) :
    ReadsBytes (do let bytes ← readSlice width; expectLe width bytes) (leBytes width value) value := by
  have hslice := reads_slice (leBytes width value)
  rw [length_leBytes] at hslice
  rw [← List.append_nil (leBytes width value)]
  apply hslice.bind
  apply ReadsBytes.lift
  rw [expectLe, if_pos (length_leBytes width value), leValue_leBytes hvalue]

theorem reads_u32 (value : UInt32) : ReadsBytes readU32 (leBytes 4 value.toNat) value := by
  have h := (reads_le 4 value.toNat value.toNat_lt).map UInt32.ofNat
  rw [UInt32.ofNat_toNat] at h
  rw [readU32]
  simpa only [map_bind, bind_pure_comp] using h

theorem reads_u64 (value : UInt64) : ReadsBytes readU64 (leBytes 8 value.toNat) value := by
  have h := (reads_le 8 value.toNat value.toNat_lt).map UInt64.ofNat
  rw [UInt64.ofNat_toNat] at h
  rw [readU64]
  simpa only [map_bind, bind_pure_comp] using h

theorem safe_le (width : Nat) (f : Nat → α) :
    ReadsSafely (do let bytes ← readSlice width; return f (← expectLe width bytes))
      fun _ => True := by
  apply (safe_slice width).bind
  intro bytes hbytes
  apply ReadsSafely.bind (P := fun _ => True) (ReadsSafely.lift ?_) fun _ _ => .pure trivial
  rw [expectLe, if_pos hbytes]
  exact trivial

theorem safe_u32 : ReadsSafely readU32 fun _ => True := safe_le 4 UInt32.ofNat

theorem safe_u64 : ReadsSafely readU64 fun _ => True := safe_le 8 UInt64.ofNat

theorem reads_vec {bytes : List UInt8} (hlength : bytes.length < 2 ^ 32) :
    ReadsBytes readVec (leBytes 4 bytes.length ++ bytes) bytes := by
  have hlen : (UInt32.ofNat bytes.length).toNat = bytes.length := UInt32.toNat_ofNat_of_lt' hlength
  have hread := reads_u32 (UInt32.ofNat bytes.length)
  have hslice := reads_slice bytes
  rw [hlen] at hread
  rw [readVec]
  apply hread.bind
  rw [hlen]
  exact hslice

theorem safe_vec : ReadsSafely readVec fun _ => True :=
  safe_u32.bind fun len _ => (safe_slice len.toNat).mono fun _ _ => trivial

theorem safe_expectBytes (expected : List UInt8) :
    ReadsSafely (expectBytes expected) fun _ => True := by
  apply (safe_slice expected.length).bind
  intro actual _
  split
  · exact .bail _
  · exact .pure trivial

theorem reads_expectBytes (expected : List UInt8) : ReadsBytes (expectBytes expected) expected () := by
  rw [expectBytes, ← List.append_nil expected]
  apply ReadsBytes.bind (by simpa using reads_slice expected)
  rw [List.append_nil, if_neg (by simp)]
  exact .pure ()

theorem safe_expectDone : ReadsSafely expectDone fun _ => True := by
  intro reader hreader
  simp only [expectDone, StateT.run_bind, StateT.run_get, Outcome.pure_eq, Outcome.ok_bind]
  split
  · exact trivial
  · exact ⟨trivial, hreader, rfl⟩

end ByteReader

end rules

end KevinDb
