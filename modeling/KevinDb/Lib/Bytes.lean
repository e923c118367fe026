import Mathlib

namespace KevinDb
set_option autoImplicit true

/-- The bytes of a number, the least first, as many as asked for. -/
def leBytes : Nat → Nat → List UInt8
  | 0, _ => []
  | width + 1, value => UInt8.ofNat value :: leBytes width (value / 256)

/-- The number of some bytes, the least first. -/
def leValue : List UInt8 → Nat
  | [] => 0
  | byte :: bytes => byte.toNat + 256 * leValue bytes

@[simp] theorem length_leBytes (width value : Nat) : (leBytes width value).length = width := by
  induction width generalizing value with
  | zero => rfl
  | succ width ih => rw [leBytes, List.length_cons, ih]

theorem leValue_leBytes {width value : Nat} (h : value < 256 ^ width) :
    leValue (leBytes width value) = value := by
  induction width generalizing value with
  | zero =>
    rw [Nat.pow_zero] at h
    rw [leBytes, leValue]
    omega
  | succ width ih =>
    rw [Nat.pow_succ] at h
    rw [leBytes, leValue, ih (Nat.div_lt_of_lt_mul (by omega)), UInt8.toNat_ofNat']
    omega

theorem leValue_append (bytes rest : List UInt8) :
    leValue (bytes ++ rest) = leValue bytes + 256 ^ bytes.length * leValue rest := by
  induction bytes with
  | nil => simp [leValue]
  | cons byte bytes ih =>
    rw [List.cons_append, leValue, leValue, ih, List.length_cons, Nat.pow_succ]
    ring

theorem and_127 : ∀ byte : UInt8, (byte &&& 127).toNat = byte.toNat % 128 := by
  decide +kernel

theorem and_128_eq_zero : ∀ byte : UInt8, byte &&& 128 = 0 ↔ byte.toNat < 128 := by
  decide +kernel

theorem or_128 : ∀ byte : UInt8, (byte ||| 128).toNat = byte.toNat % 128 + 128 := by
  decide +kernel

/-- Bits above those of a number are added to it. -/
theorem or_shiftLeft {low bits : Nat} (h : low < 2 ^ bits) (high : Nat) :
    low ||| high <<< bits = low + 2 ^ bits * high := by
  rw [Nat.or_comm, Nat.shiftLeft_eq, Nat.mul_comm, ← Nat.two_pow_add_eq_or_of_lt h, Nat.add_comm]

end KevinDb
