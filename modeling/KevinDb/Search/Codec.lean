import KevinDb.Lib.Table
import KevinDb.Search.Reader

namespace KevinDb
set_option autoImplicit true

def blockLen : Nat := 128

/-- `KDBFTS3` and a zero. -/
def magic : List UInt8 := [75, 68, 66, 70, 84, 83, 51, 0]

def searchIndexHeaderLen : Nat := 24

structure SearchIndexHeader where
  rowCount : UInt32
  termKeyGroupCount : UInt32
  termValueGroupCount : UInt32
  directoryLen : UInt32
deriving DecidableEq

structure SearchIndexRange where
  offset : UInt64
  len : UInt64
deriving DecidableEq

structure SearchIndexGroupDirectory where
  minTerm : List UInt8
  maxTerm : List UInt8
  termInfoCount : UInt32
  fst : SearchIndexRange
  termInfos : SearchIndexRange
  postings : SearchIndexRange
  positions : SearchIndexRange
deriving DecidableEq

structure SearchIndexDirectory where
  rowCount : UInt32
  termKeyGroups : List SearchIndexGroupDirectory
  termValueGroups : List SearchIndexGroupDirectory
deriving DecidableEq

/-- `TermInfo`, and `SearchIndexTermInfo`, which has the same fields. -/
structure TermInfo where
  docCount : UInt32
  postingsOffset : UInt32
  postingsLen : UInt32
  positionsOffset : UInt32
  positionsLen : UInt32
deriving DecidableEq

structure SearchRowGroup where
  minTerm : List UInt8
  maxTerm : List UInt8
  fstBytes : List UInt8
  termInfos : List TermInfo
  postings : List UInt8
  positions : List UInt8
deriving DecidableEq

structure SearchIndex where
  rowCount : UInt32
  termKeyGroups : List SearchRowGroup
  termValueGroups : List SearchRowGroup
deriving DecidableEq

def checkedU32 (value : Nat) (label : String) : Outcome UInt32 :=
  if value < 2 ^ 32 then .ok (UInt32.ofNat value) else .error (label ++ " does not fit in u32")

/-! Lists of numbers. -/

def bitWidth (max : Nat) : Nat := if max = 0 then 0 else Nat.log2 max + 1

/-- The inner loop of `pack_bits`: the bytes it pushes, and what it leaves. -/
def emitBytes (accumulator bits : Nat) : List UInt8 × Nat × Nat :=
  if bits ≥ 8 then
    let (out, rest) := emitBytes (accumulator >>> 8) (bits - 8)
    (UInt8.ofNat accumulator :: out, rest)
  else ([], accumulator, bits)
termination_by bits

/-- The loop of `pack_bits` over the values, and the last byte. -/
def packFrom (width accumulator bits : Nat) : List UInt32 → Outcome (List UInt8)
  | [] => .ok (if bits > 0 then [UInt8.ofNat accumulator] else [])
  | value :: values => do
    let accumulator := accumulator ||| (← shiftLeft 64 value.toNat bits)
    let bits ← addBelow (2 ^ 8) bits width
    let (out, accumulator, bits) := emitBytes accumulator bits
    return out ++ (← packFrom width accumulator bits values)

def packBits (values : List UInt32) (width : Nat) : Outcome (List UInt8) :=
  if width = 0 then .ok [] else packFrom width 0 0 values

/-- The inner loop of `unpack_bits`, over the bytes from its offset on. -/
def fillBits (width accumulator bits : Nat) : List UInt8 → Outcome (Nat × Nat × List UInt8)
  | [] => if bits < width then .error "truncated bitpacked block" else .ok (accumulator, bits, [])
  | byte :: bytes =>
    if bits < width then do
      let accumulator := accumulator ||| (← shiftLeft 64 byte.toNat bits)
      let bits ← addBelow (2 ^ 8) bits 8
      fillBits width accumulator bits bytes
    else .ok (accumulator, bits, byte :: bytes)

/-- The loop of `unpack_bits` for so many values more. -/
def unpackFrom (width mask : Nat) : Nat → Nat → Nat → List UInt8 → Outcome (List UInt32)
  | 0, _, _, _ => .ok []
  | count + 1, accumulator, bits, bytes => do
    let (accumulator, bits, bytes) ← fillBits width accumulator bits bytes
    let value := UInt32.ofNat (accumulator &&& mask)
    let accumulator ← shiftRight 64 accumulator width
    let bits ← subWithin bits width
    return value :: (← unpackFrom width mask count accumulator bits bytes)

/-- The mask of `unpack_bits`. -/
def unpackMask (width : Nat) : Outcome Nat :=
  if width = 32 then .ok (2 ^ 32 - 1) else do subWithin (← shiftLeft 64 1 width) 1

def unpackBits (bytes : List UInt8) (count width : Nat) : Outcome (List UInt32) :=
  if width > 32 then .error ("invalid bit width " ++ toString width)
  else if width = 0 then .ok (List.replicate count 0)
  else do
    let mask ← unpackMask width
    unpackFrom width mask count 0 0 bytes

/-- `packed_len`, with `saturating_mul` and `div_ceil`. -/
def packedLen (count width : Nat) : Nat := (min (count * width) (2 ^ 64 - 1) + 7) / 8

def putVint (value : Nat) : List UInt8 :=
  if value ≥ 128 then (UInt8.ofNat value ||| 128) :: putVint (value >>> 7) else [UInt8.ofNat value]
termination_by value
decreasing_by
  rw [Nat.shiftRight_eq_div_pow]
  omega

/-- `saturating_sub`. -/
def saturatingSub32 (a b : UInt32) : UInt32 := if b ≤ a then a - b else 0

/-- `saturating_add`. -/
def saturatingAdd32 (a b : UInt32) : UInt32 := UInt32.ofNat (min (a.toNat + b.toNat) (2 ^ 32 - 1))

/-- The first loop of `encode_u32_list`. -/
def deltasFrom (previous : UInt32) : List UInt32 → List UInt32
  | [] => []
  | value :: values => saturatingSub32 value previous :: deltasFrom value values

/-- The full blocks of `encode_u32_list`, as many as given. -/
def encodeBlocks : Nat → List UInt32 → Outcome (List UInt8)
  | 0, _ => .ok []
  | blocks + 1, deltas => do
    let block := deltas.take blockLen
    let width := bitWidth (block.foldl (fun max delta => Nat.max max delta.toNat) 0)
    let packed ← packBits block width
    return UInt8.ofNat width :: packed ++ (← encodeBlocks blocks (deltas.drop blockLen))

def encodeU32List (values : List UInt32) : Outcome (List UInt8) := do
  let deltas := deltasFrom 0 values
  let fullBlocks := deltas.length / blockLen
  let blocks ← encodeBlocks fullBlocks deltas
  return blocks ++ (deltas.drop (fullBlocks * blockLen)).flatMap fun delta => putVint delta.toNat

/-- The values that deltas lead to from a value. -/
def valuesFrom (previous : UInt32) : List UInt32 → List UInt32
  | [] => []
  | delta :: deltas =>
    saturatingAdd32 previous delta :: valuesFrom (saturatingAdd32 previous delta) deltas

namespace ByteReader

/-- The first loop of `read_u32_list`. The previous value is the last one. -/
def readBlocks : Nat → UInt32 → Read (List UInt32)
  | 0, _ => return []
  | blocks + 1, previous => do
    let width ← readU8
    let packed ← readSlice (packedLen blockLen width.toNat)
    let values := valuesFrom previous (← unpackBits packed blockLen width.toNat)
    return values ++ (← readBlocks blocks (values.getLast?.getD previous))

/-- The second loop of `read_u32_list`. -/
def readTail : Nat → UInt32 → Read (List UInt32)
  | 0, _ => return []
  | count + 1, previous => do
    let delta ← readVint
    let value := saturatingAdd32 previous delta
    return value :: (← readTail count value)

def readU32List (count : Nat) : Read (List UInt32) := do
  let values ← readBlocks (count / blockLen) 0
  return values ++ (← readTail (count % blockLen) (values.getLast?.getD 0))

end ByteReader

/-- The value of a function on a new reader. -/
def readFrom (bytes : List UInt8) (read : Read α) : Outcome α := do
  let (value, _) ← read.run (ByteReader.new bytes)
  return value

def decodeU32List (bytes : List UInt8) (count : Nat) : Outcome (List UInt32) :=
  readFrom bytes do
    let values ← ByteReader.readU32List count
    ByteReader.expectDone
    return values

/-- The count of positions is cast to 32 bits. -/
def encodePositions (rows : List UInt32) (positionsByRow : Table UInt32 (List UInt32)) :
    Outcome (List UInt8) :=
  match rows with
  | [] => .ok []
  | row :: rows => do
    let positions := positionsByRow[row]?.getD []
    let encoded ← encodeU32List positions
    return putVint (positions.length % 2 ^ 32) ++ encoded ++ (← encodePositions rows positionsByRow)

/-- A set of numbers, by its elements in order. -/
def numberSet (values : List UInt32) : List UInt32 := (values.insertionSort (· ≤ ·)).dedup

/-- The loop of `decode_positions`. -/
def readPositions : List UInt32 → Table UInt32 (List UInt32) → Read (Table UInt32 (List UInt32))
  | [], positionsByRow => return positionsByRow
  | row :: rows, positionsByRow => do
    let count ← ByteReader.readVint
    let positions ← ByteReader.readU32List count.toNat
    readPositions rows (positionsByRow.insert row (numberSet positions))

def decodePositions (bytes : List UInt8) (rows : List UInt32) :
    Outcome (Table UInt32 (List UInt32)) :=
  readFrom bytes do
    let positionsByRow ← readPositions rows ∅
    ByteReader.expectDone
    return positionsByRow

end KevinDb
