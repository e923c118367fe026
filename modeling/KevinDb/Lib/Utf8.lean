import Mathlib.Data.List.Basic

namespace KevinDb
set_option autoImplicit true

/-- The length of a text in bytes. -/
def byteLength : List Char → Nat
  | [] => 0
  | c :: text => c.utf8Size + byteLength text

@[simp] theorem byteLength_append (front back : List Char) :
    byteLength (front ++ back) = byteLength front + byteLength back := by
  induction front with
  | nil => exact (Nat.zero_add _).symm
  | cons c front ih => rw [List.cons_append, byteLength, ih, byteLength, Nat.add_assoc]

@[simp] theorem byteLength_singleton (c : Char) : byteLength [c] = c.utf8Size := rfl

/-- The text before a place and the text from there on. There is neither past the end nor inside a
character, where slicing panics. -/
def splitAtByte : Nat → List Char → Option (List Char × List Char)
  | 0, text => some ([], text)
  | _ + 1, [] => none
  | n + 1, c :: text =>
    if c.utf8Size ≤ n + 1 then
      (splitAtByte (n + 1 - c.utf8Size) text).map fun parts => (c :: parts.1, parts.2)
    else none

theorem splitAtByte_append (front back : List Char) :
    splitAtByte (byteLength front) (front ++ back) = some (front, back) := by
  induction front with
  | nil => rw [byteLength, List.nil_append, splitAtByte]
  | cons c front ih =>
    have hpos := c.utf8Size_pos
    obtain ⟨n, hn⟩ := Nat.exists_eq_succ_of_ne_zero
      (Nat.ne_of_gt (Nat.add_pos_left hpos (byteLength front)))
    have hrest : n + 1 - c.utf8Size = byteLength front := by omega
    rw [byteLength, hn, List.cons_append, splitAtByte, if_pos (by omega), hrest, ih]
    rfl

theorem eq_append_of_splitAtByte {n : Nat} {text front back : List Char}
    (h : splitAtByte n text = some (front, back)) :
    text = front ++ back ∧ byteLength front = n := by
  induction text generalizing n front with
  | nil =>
    cases n with
    | zero =>
      cases h
      exact ⟨rfl, rfl⟩
    | succ n => cases h
  | cons c text ih =>
    cases n with
    | zero =>
      cases h
      exact ⟨rfl, rfl⟩
    | succ n =>
      rw [splitAtByte] at h
      split at h
      next hfits =>
        obtain ⟨parts, hparts, heq⟩ := Option.map_eq_some_iff.1 h
        cases heq
        obtain ⟨rfl, hlength⟩ := ih hparts
        refine ⟨rfl, ?_⟩
        rw [byteLength, hlength]
        omega
      · cases h

theorem append_inj_of_byteLength {front back front' back' : List Char}
    (h : front ++ back = front' ++ back') (hlength : byteLength front = byteLength front') :
    front = front' ∧ back = back' := by
  have hsplit := splitAtByte_append front back
  rw [h, hlength, splitAtByte_append] at hsplit
  cases hsplit
  exact ⟨rfl, rfl⟩

/-- A place is at the end of some of the characters. -/
def IsBoundary (n : Nat) (text : List Char) : Prop :=
  ∃ front back, text = front ++ back ∧ byteLength front = n

theorem isSome_splitAtByte {n : Nat} {text : List Char} :
    (splitAtByte n text).isSome ↔ IsBoundary n text := by
  rw [Option.isSome_iff_exists]
  constructor
  · rintro ⟨⟨front, back⟩, h⟩
    exact ⟨front, back, eq_append_of_splitAtByte h⟩
  · rintro ⟨front, back, rfl, rfl⟩
    exact ⟨_, splitAtByte_append front back⟩

instance (n : Nat) (text : List Char) : Decidable (IsBoundary n text) :=
  decidable_of_iff _ isSome_splitAtByte

/-- The text between two places. -/
def sliceBytes (start stop : Nat) (text : List Char) : Option (List Char) := do
  let (front, _) ← splitAtByte stop text
  let (_, slice) ← splitAtByte start front
  return slice

theorem sliceBytes_append (front slice back : List Char) :
    sliceBytes (byteLength front) (byteLength (front ++ slice)) (front ++ slice ++ back) =
      some slice := by
  rw [sliceBytes, splitAtByte_append, Option.bind_eq_bind, Option.bind_some]
  simp only [splitAtByte_append]
  rfl

theorem utf8Size_toLower (c : Char) : c.toLower.utf8Size = c.utf8Size := by
  delta Char.toLower
  split
  next hupper =>
    have hsmall : c.val.toNat ≤ 90 := UInt32.le_iff_toNat_le.1 hupper.2
    rw [Char.utf8Size_eq_one_iff.2, Char.utf8Size_eq_one_iff.2]
    · exact UInt32.le_iff_toNat_le.2 (Nat.le_trans hsmall (by decide))
    · rw [UInt32.le_iff_toNat_le, UInt32.toNat_add]
      exact Nat.le_trans (Nat.mod_le _ _)
        (Nat.le_trans (Nat.add_le_add_right hsmall _) (by decide))
  · rfl

theorem byteLength_map_toLower (text : List Char) :
    byteLength (text.map Char.toLower) = byteLength text := by
  induction text with
  | nil => rfl
  | cons c text ih => rw [List.map_cons, byteLength, ih, utf8Size_toLower, byteLength]

end KevinDb
