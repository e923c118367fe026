import Mathlib

namespace KevinDb
set_option autoImplicit true

/-- The bytes of a text. -/
def utf8Bytes (text : List Char) : List UInt8 := text.flatMap String.utf8EncodeChar

@[simp] theorem utf8Bytes_nil : utf8Bytes [] = [] := rfl

theorem utf8Bytes_cons (c : Char) (text : List Char) :
    utf8Bytes (c :: text) = String.utf8EncodeChar c ++ utf8Bytes text := rfl

@[simp] theorem utf8Bytes_append (front back : List Char) :
    utf8Bytes (front ++ back) = utf8Bytes front ++ utf8Bytes back := List.flatMap_append

theorem toByteArray_utf8Bytes (text : List Char) :
    (utf8Bytes text).toByteArray = text.utf8Encode := rfl

/-- The bytes of an array, in a list. -/
theorem toList_byteArray (bytes : ByteArray) : bytes.toList = bytes.data.toList := by
  have hloop (n i : Nat) (front : List UInt8) (hn : bytes.size - i = n) :
      ByteArray.toList.loop bytes i front = front.reverse ++ bytes.data.toList.drop i := by
    induction n generalizing i front with
    | zero =>
      have hend : bytes.data.toList.length ≤ i := by
        rw [Array.length_toList]
        exact Nat.sub_eq_zero_iff_le.1 hn
      rw [ByteArray.toList.loop, if_neg (Nat.not_lt_of_le (Nat.sub_eq_zero_iff_le.1 hn)),
        List.drop_eq_nil_of_le hend, List.append_nil]
    | succ n ih =>
      have hlt : i < bytes.size := by omega
      have hdata : i < bytes.data.toList.length := by simpa using hlt
      have hget : bytes.get! i = bytes.data.toList[i] := by
        rw [ByteArray.get!, getElem!_pos bytes.data i hlt, Array.getElem_toList]
      rw [ByteArray.toList.loop, if_pos hlt, ih (i + 1) _ (by omega), List.reverse_cons,
        List.append_assoc, List.singleton_append, hget, ← List.drop_eq_getElem_cons]
  rw [ByteArray.toList, hloop _ 0 [] rfl]
  rfl

theorem toList_toUTF8 (text : String) : text.toUTF8.toList = utf8Bytes text.toList := by
  rw [toList_byteArray, String.toUTF8_eq_toByteArray, ← String.utf8Encode_toList,
    ← toByteArray_utf8Bytes, List.toList_data_toByteArray]

/-- `str::from_utf8`. -/
def fromUtf8 (bytes : List UInt8) : Option String := String.fromUTF8? bytes.toByteArray

@[simp] theorem fromUtf8_utf8Bytes (text : List Char) :
    fromUtf8 (utf8Bytes text) = some (String.ofList text) := by
  have hvalid : (utf8Bytes text).toByteArray.IsValidUTF8 := by
    rw [toByteArray_utf8Bytes]
    exact ByteArray.isValidUTF8_utf8Encode
  rw [fromUtf8, String.fromUTF8?, dif_pos hvalid, Option.some.injEq, ← String.toByteArray_inj,
    String.toByteArray_ofList]
  rfl

theorem utf8Bytes_prefix {front text : List Char} :
    utf8Bytes front <+: utf8Bytes text ↔ front <+: text := by
  constructor
  · rintro ⟨rest, hrest⟩
    apply List.isPrefix_of_utf8Encode_append_eq_utf8Encode rest.toByteArray
    rw [← toByteArray_utf8Bytes, ← toByteArray_utf8Bytes, ← hrest, List.toByteArray_append]
  · rintro ⟨rest, rfl⟩
    rw [utf8Bytes_append]
    exact List.prefix_append _ _

theorem utf8Bytes_injective : Function.Injective utf8Bytes := by
  intro text text' h
  have hsome := fromUtf8_utf8Bytes text
  rw [h, fromUtf8_utf8Bytes, Option.some.injEq] at hsome
  simpa using congrArg String.toList hsome.symm

theorem zero_mem_utf8EncodeChar {c : Char} : 0 ∈ String.utf8EncodeChar c ↔ c = Char.ofNat 0 := by
  have hzero : UInt8.toNat 0 = 0 := rfl
  constructor
  · fun_cases String.utf8EncodeChar c with
    | case1 v hv =>
      intro hmem
      rw [List.mem_singleton, ← UInt8.toNat_inj, hzero] at hmem
      change 0 = v % 2 ^ 8 at hmem
      apply Char.ext
      apply UInt32.toNat_inj.1
      change v = 0
      omega
    -- All bytes of a longer character are at least 128.
    | case2 v hv =>
      intro hmem
      simp only [List.mem_cons, List.not_mem_nil, or_false, ← UInt8.toNat_inj, UInt8.toNat_ofNat',
        hzero] at hmem
      omega
    | case3 v hv =>
      intro hmem
      simp only [List.mem_cons, List.not_mem_nil, or_false, ← UInt8.toNat_inj, UInt8.toNat_ofNat',
        hzero] at hmem
      omega
    | case4 v hv =>
      intro hmem
      simp only [List.mem_cons, List.not_mem_nil, or_false, ← UInt8.toNat_inj, UInt8.toNat_ofNat',
        hzero] at hmem
      omega
  · rintro rfl
    decide

/-- Only the character zero has a byte zero. -/
theorem zero_mem_utf8Bytes {text : List Char} : 0 ∈ utf8Bytes text ↔ Char.ofNat 0 ∈ text := by
  simp only [utf8Bytes, List.mem_flatMap, zero_mem_utf8EncodeChar, exists_eq_right]

/-! Bytes that need not be a text. -/

def isContinuation (byte : UInt8) : Bool := byte &&& 192 = 128

/-- Whether a byte can follow the first one of a character of three or four bytes. -/
def continues (first second : UInt8) : Bool :=
  if first = 0xe0 then 0xa0 ≤ second ∧ second ≤ 0xbf
  else if first = 0xed then 0x80 ≤ second ∧ second ≤ 0x9f
  else if first = 0xf0 then 0x90 ≤ second ∧ second ≤ 0xbf
  else if first = 0xf4 then 0x80 ≤ second ∧ second ≤ 0x8f
  else 0xe1 ≤ first ∧ first ≤ 0xf3 ∧ isContinuation second

/-- How many bytes one replacement character stands for. -/
def replacedLen (bytes : List UInt8) : Nat :=
  let first := bytes.getD 0 0
  if !continues first (bytes.getD 1 0) then 1
  else if first < 0xf0 ∨ !isContinuation (bytes.getD 2 0) then 2
  else 3

theorem replacedLen_pos (bytes : List UInt8) : 0 < replacedLen bytes := by
  rw [replacedLen]
  split
  · exact Nat.one_pos
  · split <;> decide

/-- The characters of `String::from_utf8_lossy`: a sequence that is no character, as far as it could
begin one, is replaced. -/
def lossyChars : List UInt8 → List Char
  | [] => []
  | byte :: bytes =>
    match (byte :: bytes).toByteArray.utf8DecodeChar? 0 with
    | some c => c :: lossyChars ((byte :: bytes).drop c.utf8Size)
    | none => Char.ofNat 0xfffd :: lossyChars ((byte :: bytes).drop (replacedLen (byte :: bytes)))
termination_by bytes => bytes.length
decreasing_by
  · rw [List.length_drop]
    exact Nat.sub_lt (Nat.succ_pos _) c.utf8Size_pos
  · rw [List.length_drop]
    exact Nat.sub_lt (Nat.succ_pos _) (replacedLen_pos _)

def fromUtf8Lossy (bytes : List UInt8) : String := String.ofList (lossyChars bytes)

theorem lossyChars_utf8Bytes (text : List Char) : lossyChars (utf8Bytes text) = text := by
  induction text with
  | nil => rw [utf8Bytes_nil, lossyChars]
  | cons c text ih =>
    obtain ⟨byte, bytes, hbytes⟩ : ∃ byte bytes, utf8Bytes (c :: text) = byte :: bytes :=
      List.exists_cons_of_ne_nil
        (List.append_ne_nil_of_left_ne_nil String.utf8EncodeChar_ne_nil _)
    have hdrop : (utf8Bytes (c :: text)).drop c.utf8Size = utf8Bytes text := by
      rw [utf8Bytes_cons, ← String.length_utf8EncodeChar, List.drop_left]
    rw [hbytes, lossyChars, ← hbytes, toByteArray_utf8Bytes, List.utf8DecodeChar?_utf8Encode_cons]
    simp only [hdrop, ih]

@[simp] theorem fromUtf8Lossy_utf8Bytes (text : List Char) :
    fromUtf8Lossy (utf8Bytes text) = String.ofList text := by
  rw [fromUtf8Lossy, lossyChars_utf8Bytes]

end KevinDb
