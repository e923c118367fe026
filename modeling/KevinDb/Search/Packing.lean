import KevinDb.Search.Codec

namespace KevinDb
set_option autoImplicit true

variable {width bits accumulator count value : Nat} {values : List UInt32}

theorem shiftLeft_eq {shift : Nat} (hshift : shift < width) (hvalue : value * 2 ^ shift < 2 ^ width) :
    shiftLeft width value shift = .ok (value * 2 ^ shift) := by
  rw [shiftLeft, if_pos hshift, Nat.shiftLeft_eq, Nat.mod_eq_of_lt hvalue]

/-! Variable length numbers. -/

theorem putVint_of_lt (h : value < 128) : putVint value = [UInt8.ofNat value] := by
  rw [putVint, if_neg (by omega)]

theorem putVint_of_le (h : 128 ≤ value) :
    putVint value = (UInt8.ofNat value ||| 128) :: putVint (value / 128) := by
  rw [putVint, if_pos h, Nat.shiftRight_eq_div_pow]

namespace ByteReader

/-- A byte of a number, read at a shift where there is room for it. -/
theorem readVintFrom_eq {shift : Nat} (hshift : shift < 32) (value : UInt32) :
    readVintFrom shift value = (do
      let byte ← readU8
      let value := value ||| UInt32.ofNat ((byte &&& 127).toNat <<< shift % 2 ^ 32)
      if byte &&& 128 = 0 then return value
      else if shift + 7 ≥ 32 then bail "invalid vint in search index"
      else readVintFrom (shift + 7) value) := by
  rw [readVintFrom]
  simp only [shiftLeft, if_pos hshift]
  rfl

/-- The bits that a byte adds to those read before. -/
theorem or_payload {shift payload : Nat} {value : UInt32} (hvalue : value.toNat < 2 ^ shift)
    (hbound : value.toNat + 2 ^ shift * payload < 2 ^ 32) :
    (value ||| UInt32.ofNat (payload <<< shift % 2 ^ 32)).toNat =
      value.toNat + 2 ^ shift * payload := by
  have hshifted : payload <<< shift = 2 ^ shift * payload := by
    rw [Nat.shiftLeft_eq, Nat.mul_comm]
  rw [UInt32.toNat_or, UInt32.toNat_ofNat', Nat.mod_mod, Nat.mod_eq_of_lt (by omega),
    or_shiftLeft hvalue]

/-- What is left of a number is read behind its first bits. -/
theorem reads_vintFrom (n : Nat) : ∀ {shift : Nat} {value : UInt32}, shift < 32 →
    value.toNat < 2 ^ shift → value.toNat + 2 ^ shift * n < 2 ^ 32 →
      ReadsBytes (readVintFrom shift value) (putVint n)
        (UInt32.ofNat (value.toNat + 2 ^ shift * n)) := by
  induction n using Nat.strongRecOn with
  | ind n ih =>
    intro shift value hshift hvalue hbound
    rw [readVintFrom_eq hshift]
    by_cases hn : n < 128
    · have hbyte : (UInt8.ofNat n).toNat = n := by
        rw [UInt8.toNat_ofNat']
        omega
      have hpayload : (UInt8.ofNat n &&& 127).toNat = n := by
        rw [and_127, hbyte]
        omega
      have hlast : UInt8.ofNat n &&& 128 = 0 := by
        rw [and_128_eq_zero, hbyte]
        exact hn
      rw [putVint_of_lt hn, ← List.append_nil [UInt8.ofNat n]]
      apply (reads_u8 _).bind
      dsimp only
      rw [if_pos hlast, hpayload, ← or_payload hvalue hbound, UInt32.ofNat_toNat]
      exact .pure _
    · have hbyte : (UInt8.ofNat n ||| 128).toNat = n % 128 + 128 := by
        rw [or_128, UInt8.toNat_ofNat']
        omega
      have hpayload : ((UInt8.ofNat n ||| 128) &&& 127).toNat = n % 128 := by
        rw [and_127, hbyte]
        omega
      have hmore : (UInt8.ofNat n ||| 128) &&& 128 ≠ 0 := by
        rw [ne_eq, and_128_eq_zero, hbyte]
        omega
      have hpower : 2 ^ (shift + 7) = 2 ^ shift * 128 := Nat.pow_add 2 shift 7
      have hsplit : 2 ^ shift * n = 2 ^ shift * (n % 128) + 2 ^ (shift + 7) * (n / 128) := by
        rw [hpower, Nat.mul_assoc, ← Nat.mul_add, Nat.mod_add_div]
      have hroom : shift + 7 < 32 := by
        have hle : 2 ^ (shift + 7) * 1 ≤ 2 ^ (shift + 7) * (n / 128) :=
          Nat.mul_le_mul_left _ (by omega)
        have hlt : 2 ^ (shift + 7) < 2 ^ 32 := by omega
        exact (Nat.pow_lt_pow_iff_right (by decide)).1 hlt
      have hor : (value ||| UInt32.ofNat ((n % 128) <<< shift % 2 ^ 32)).toNat =
          value.toNat + 2 ^ shift * (n % 128) :=
        or_payload hvalue (by omega)
      have hmod : 2 ^ shift * (n % 128 + 1) ≤ 2 ^ shift * 128 :=
        Nat.mul_le_mul_left _ (Nat.mod_lt n (by decide))
      rw [Nat.mul_succ] at hmod
      rw [putVint_of_le (Nat.le_of_not_lt hn), ← List.singleton_append]
      apply (reads_u8 _).bind
      dsimp only
      rw [if_neg hmore, if_neg (by omega), hpayload]
      have hvalue' : (value ||| UInt32.ofNat ((n % 128) <<< shift % 2 ^ 32)).toNat <
          2 ^ (shift + 7) := by
        rw [hor, hpower]
        omega
      have hrest := ih (n / 128) (by omega) hroom hvalue' (by
        rw [hor]
        omega)
      rw [hor, Nat.add_assoc, ← hsplit] at hrest
      exact hrest

theorem reads_vint (value : UInt32) : ReadsBytes readVint (putVint value.toNat) value := by
  have hbound : (0 : UInt32).toNat + 2 ^ 0 * value.toNat < 2 ^ 32 := by
    rw [Nat.pow_zero, Nat.one_mul]
    exact (Nat.zero_add _).symm ▸ value.toNat_lt
  have h := reads_vintFrom value.toNat (by decide) (by decide) hbound
  rw [Nat.pow_zero, Nat.one_mul] at h
  rw [readVint]
  simpa using h

end ByteReader

/-! Packed numbers. -/

/-- The number whose digits, the least first, are some values of so many bits. -/
def packedValue (width : Nat) : List UInt32 → Nat
  | [] => 0
  | value :: values => value.toNat + 2 ^ width * packedValue width values

theorem emitBytes_eq (accumulator bits : Nat) :
    emitBytes accumulator bits =
      (leBytes (bits / 8) accumulator, accumulator / 256 ^ (bits / 8), bits % 8) := by
  induction bits using Nat.strongRecOn generalizing accumulator with
  | ind bits ih =>
    by_cases hbits : bits ≥ 8
    · have hdiv : bits / 8 = (bits - 8) / 8 + 1 := by omega
      have hpower : 256 ^ ((bits - 8) / 8 + 1) = 256 * 256 ^ ((bits - 8) / 8) := Nat.pow_succ'
      rw [emitBytes, if_pos hbits, ih (bits - 8) (by omega), hdiv, leBytes,
        Nat.shiftRight_eq_div_pow, hpower, ← Nat.div_div_eq_div_mul,
        show (bits - 8) % 8 = bits % 8 by omega]
    · rw [emitBytes, if_neg hbits, show bits / 8 = 0 by omega, Nat.pow_zero, Nat.div_one,
        Nat.mod_eq_of_lt (by omega)]
      rfl

theorem leValue_leBytes_mod (width value : Nat) :
    leValue (leBytes width value) = value % 256 ^ width := by
  induction width generalizing value with
  | zero => rw [leBytes, leValue, Nat.pow_zero, Nat.mod_one]
  | succ width ih =>
    have hpower : 256 ^ (width + 1) = 256 * 256 ^ width := Nat.pow_succ'
    rw [leBytes, leValue, ih, UInt8.toNat_ofNat', hpower, Nat.mod_mul]

/-- Packing writes the bits of the values behind those in the accumulator, and no bit is lost. -/
theorem packFrom_eq (hwidth : width ≤ 32) (values : List UInt32)
    (hvalues : ∀ value ∈ values, value.toNat < 2 ^ width) :
    ∀ {accumulator bits : Nat}, bits < 8 → accumulator < 2 ^ bits →
      ∃ out, packFrom width accumulator bits values = .ok out ∧
        leValue out = accumulator + 2 ^ bits * packedValue width values ∧
        out.length = (bits + width * values.length + 7) / 8 := by
  induction values with
  | nil =>
    intro accumulator bits hbits haccumulator
    refine ⟨_, rfl, ?_, ?_⟩
    · rw [packedValue, Nat.mul_zero, Nat.add_zero]
      split
      · have hpower : 2 ^ bits ≤ 2 ^ 7 := Nat.pow_le_pow_right (by decide) (by omega)
        rw [leValue, leValue, UInt8.toNat_ofNat']
        omega
      · next hzero =>
        rw [show bits = 0 by omega] at haccumulator
        rw [leValue]
        omega
    · rw [List.length_nil, Nat.mul_zero]
      split
      · rw [List.length_singleton]
        omega
      · rw [List.length_nil]
        omega
  | cons value values ih =>
    intro accumulator bits hbits haccumulator
    obtain ⟨hvalue, hvalues⟩ := List.forall_mem_cons.1 hvalues
    have hshift : value.toNat * 2 ^ bits < 2 ^ 64 :=
      calc value.toNat * 2 ^ bits < 2 ^ width * 2 ^ bits :=
            Nat.mul_lt_mul_of_pos_right hvalue (Nat.two_pow_pos bits)
        _ = 2 ^ (width + bits) := (Nat.pow_add 2 width bits).symm
        _ ≤ 2 ^ 64 := Nat.pow_le_pow_right (by decide) (by omega)
    have hor : accumulator ||| value.toNat * 2 ^ bits = accumulator + 2 ^ bits * value.toNat := by
      rw [← Nat.shiftLeft_eq, or_shiftLeft haccumulator]
    have hwithin : accumulator + 2 ^ bits * value.toNat < 2 ^ (bits + width) := by
      have hle : 2 ^ bits * (value.toNat + 1) ≤ 2 ^ bits * 2 ^ width :=
        Nat.mul_le_mul_left _ hvalue
      rw [Nat.pow_add]
      rw [Nat.mul_succ] at hle
      omega
    have hbits' : (bits + width) % 8 + 8 * ((bits + width) / 8) = bits + width :=
      Nat.mod_add_div _ _
    have hpower : 256 ^ ((bits + width) / 8) = 2 ^ (8 * ((bits + width) / 8)) := by
      rw [Nat.pow_mul]
    have hrest : (accumulator + 2 ^ bits * value.toNat) / 256 ^ ((bits + width) / 8) <
        2 ^ ((bits + width) % 8) := by
      rw [Nat.div_lt_iff_lt_mul (Nat.pow_pos (by decide)), hpower, ← Nat.pow_add, hbits']
      exact hwithin
    obtain ⟨out, hout, hvalue', hlength⟩ := ih hvalues (Nat.mod_lt _ (by decide)) hrest
    refine ⟨leBytes ((bits + width) / 8) (accumulator + 2 ^ bits * value.toNat) ++ out, ?_, ?_, ?_⟩
    · rw [packFrom, shiftLeft_eq (by omega) hshift, Outcome.ok_bind, hor, addBelow,
        if_pos (by omega), Outcome.ok_bind, emitBytes_eq]
      dsimp only
      rw [hout]
      rfl
    · rw [leValue_append, leValue_leBytes_mod, length_leBytes, hvalue', packedValue, Nat.mul_add,
        ← Nat.add_assoc, Nat.mod_add_div, Nat.mul_add, ← Nat.mul_assoc, ← Nat.mul_assoc, hpower,
        ← Nat.pow_add, ← Nat.pow_add, Nat.add_comm (8 * _), hbits', Nat.add_assoc]
    · rw [List.length_append, length_leBytes, hlength, List.length_cons, Nat.mul_succ]
      omega


/-- The first digits of a number in a system of so many bits. -/
def unpackedValue (width : Nat) : Nat → Nat → List UInt32
  | 0, _ => []
  | count + 1, value => UInt32.ofNat (value % 2 ^ width) :: unpackedValue width count (value / 2 ^ width)

theorem unpackedValue_packedValue
    (hvalues : ∀ value ∈ values, value.toNat < 2 ^ width) :
    unpackedValue width values.length (packedValue width values) = values := by
  induction values with
  | nil => rfl
  | cons value values ih =>
    obtain ⟨hvalue, hvalues⟩ := List.forall_mem_cons.1 hvalues
    rw [List.length_cons, unpackedValue, packedValue, Nat.add_mul_mod_self_left,
      Nat.mod_eq_of_lt hvalue, UInt32.ofNat_toNat, Nat.add_mul_div_left _ _ (Nat.two_pow_pos width),
      Nat.div_eq_of_lt hvalue, Nat.zero_add, ih hvalues]

/-- The bits that are to be unpacked: those of the accumulator, then those of the bytes. -/
def remainingBits (accumulator bits : Nat) (bytes : List UInt8) : Nat :=
  accumulator + 2 ^ bits * leValue bytes

/-- Filling moves bits into the accumulator, until there are enough. -/
theorem fillBits_eq (hwidth : width ≤ 32) (bytes : List UInt8) :
    ∀ {accumulator bits : Nat}, accumulator < 2 ^ bits → bits < width + 8 →
      width ≤ bits + 8 * bytes.length →
        ∃ accumulator' bits' bytes',
          fillBits width accumulator bits bytes = .ok (accumulator', bits', bytes') ∧
            remainingBits accumulator' bits' bytes' = remainingBits accumulator bits bytes ∧
            accumulator' < 2 ^ bits' ∧ width ≤ bits' ∧ bits' < width + 8 ∧
            bits' + 8 * bytes'.length = bits + 8 * bytes.length := by
  induction bytes with
  | nil =>
    intro accumulator bits haccumulator hbits henough
    rw [List.length_nil] at henough
    exact ⟨accumulator, bits, [], if_neg (by omega), rfl, haccumulator, by omega, hbits, rfl⟩
  | cons byte bytes ih =>
    intro accumulator bits haccumulator hbits henough
    rw [List.length_cons] at henough
    by_cases hless : bits < width
    · have hbyte := byte.toNat_lt
      have hpower : 2 ^ (bits + 8) = 2 ^ bits * 256 := Nat.pow_add 2 bits 8
      have hshift : byte.toNat * 2 ^ bits < 2 ^ 64 :=
        calc byte.toNat * 2 ^ bits < 256 * 2 ^ bits :=
              Nat.mul_lt_mul_of_pos_right hbyte (Nat.two_pow_pos bits)
          _ = 2 ^ (bits + 8) := by rw [hpower, Nat.mul_comm]
          _ ≤ 2 ^ 64 := Nat.pow_le_pow_right (by decide) (by omega)
      have hor : accumulator ||| byte.toNat * 2 ^ bits = accumulator + 2 ^ bits * byte.toNat := by
        rw [← Nat.shiftLeft_eq, or_shiftLeft haccumulator]
      have hwithin : accumulator + 2 ^ bits * byte.toNat < 2 ^ (bits + 8) := by
        have hle : 2 ^ bits * (byte.toNat + 1) ≤ 2 ^ bits * 256 := Nat.mul_le_mul_left _ hbyte
        rw [Nat.mul_succ] at hle
        omega
      obtain ⟨accumulator', bits', bytes', hfill, hremaining, hrest⟩ :=
        ih hwithin (by omega) (by omega)
      refine ⟨accumulator', bits', bytes', ?_, ?_, ?_⟩
      · rw [fillBits, if_pos hless, shiftLeft_eq (by omega) hshift, Outcome.ok_bind, hor, addBelow,
          if_pos (by omega), Outcome.ok_bind, hfill]
      · rw [hremaining, remainingBits, remainingBits, leValue, Nat.mul_add, ← Nat.mul_assoc,
          ← hpower, Nat.add_assoc]
      · rw [List.length_cons]
        omega
    · exact ⟨accumulator, bits, byte :: bytes, by rw [fillBits, if_neg hless], rfl, haccumulator,
        by omega, hbits, rfl⟩

/-- Unpacking reads the digits of the bits that remain. -/
theorem unpackFrom_eq (hwidth : width ≤ 32) (count : Nat) :
    ∀ {accumulator bits : Nat} {bytes : List UInt8}, accumulator < 2 ^ bits → bits < 8 →
      width * count ≤ bits + 8 * bytes.length →
        unpackFrom width (2 ^ width - 1) count accumulator bits bytes =
          .ok (unpackedValue width count (remainingBits accumulator bits bytes)) := by
  induction count with
  | zero =>
    intro accumulator bits bytes _ _ _
    rfl
  | succ count ih =>
    intro accumulator bits bytes haccumulator hbits henough
    rw [Nat.mul_succ] at henough
    obtain ⟨accumulator', bits', bytes', hfill, hremaining, haccumulator', hfull, hbits', hlength⟩ :=
      fillBits_eq hwidth bytes haccumulator (by omega) (by omega)
    have hpower : 2 ^ bits' = 2 ^ width * 2 ^ (bits' - width) := by
      rw [← Nat.pow_add, Nat.add_sub_cancel' hfull]
    have hdigit : accumulator' % 2 ^ width = remainingBits accumulator bits bytes % 2 ^ width := by
      rw [← hremaining, remainingBits, hpower, Nat.mul_assoc, Nat.add_mul_mod_self_left]
    have hrest : remainingBits (accumulator' / 2 ^ width) (bits' - width) bytes' =
        remainingBits accumulator bits bytes / 2 ^ width := by
      rw [← hremaining, remainingBits, remainingBits, hpower, Nat.mul_assoc,
        Nat.add_mul_div_left _ _ (Nat.two_pow_pos width)]
    have hsmall : accumulator' / 2 ^ width < 2 ^ (bits' - width) := by
      rw [Nat.div_lt_iff_lt_mul (Nat.two_pow_pos width), Nat.mul_comm, ← hpower]
      exact haccumulator'
    rw [unpackFrom, hfill, Outcome.ok_bind]
    dsimp only
    rw [shiftRight, if_pos (by omega), Outcome.ok_bind, subWithin, if_pos hfull, Outcome.ok_bind,
      Nat.shiftRight_eq_div_pow, ih hsmall (by omega) (by omega), hrest, unpackedValue,
      Nat.and_two_pow_sub_one_eq_mod, hdigit]
    rfl

/-- The mask of a width. -/
theorem unpackMask_eq (hwidth : width ≤ 32) : unpackMask width = .ok (2 ^ width - 1) := by
  rw [unpackMask]
  split
  · next h => rw [h]
  · have hpower : 2 ^ width ≤ 2 ^ 32 := Nat.pow_le_pow_right (by decide) hwidth
    rw [shiftLeft_eq (by omega) (by omega), Outcome.ok_bind, Nat.one_mul, subWithin,
      if_pos (Nat.one_le_two_pow)]

/-- Values of so many bits are packed without losing any and unpacked again. -/
theorem unpackBits_packBits (hwidth : width ≤ 32)
    (hvalues : ∀ value ∈ values, value.toNat < 2 ^ width) :
    ∃ out, packBits values width = .ok out ∧ out.length = (width * values.length + 7) / 8 ∧
      unpackBits out values.length width = .ok values := by
  by_cases hzero : width = 0
  · subst hzero
    refine ⟨[], rfl, by simp, ?_⟩
    rw [unpackBits, if_neg (by decide), if_pos rfl]
    refine congrArg Outcome.ok (List.eq_replicate_iff.2 ⟨rfl, ?_⟩).symm
    intro value hvalue
    have hless := hvalues value hvalue
    exact UInt32.toNat_inj.1 (by simpa using hless)
  · obtain ⟨out, hout, hvalue, hlength⟩ :=
      packFrom_eq hwidth values hvalues (by decide : 0 < 8) (by decide : 0 < 2 ^ 0)
    rw [Nat.pow_zero, Nat.one_mul, Nat.zero_add] at hvalue
    rw [Nat.zero_add] at hlength
    refine ⟨out, by rw [packBits, if_neg hzero, hout], hlength, ?_⟩
    rw [unpackBits, if_neg (by omega), if_neg hzero, unpackMask_eq hwidth, Outcome.ok_bind,
      unpackFrom_eq hwidth values.length (by decide : 0 < 2 ^ 0) (by decide) (by omega),
      remainingBits, Nat.pow_zero, Nat.one_mul, Nat.zero_add, hvalue,
      unpackedValue_packedValue hvalues]

end KevinDb
