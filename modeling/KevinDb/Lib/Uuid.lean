import Mathlib.Data.List.TakeWhile
import KevinDb.Lib.Text

namespace KevinDb
set_option autoImplicit true

abbrev Uuid := Fin (2 ^ 128)

/-- The 32 hexadecimal digits. -/
def Uuid.digits (id : Uuid) : List Char := hexDigits 32 id

/-- `Uuid::simple`. -/
def Uuid.simple (id : Uuid) : String := String.ofList id.digits

def hyphenate (digits : List Char) : List Char :=
  digits.take 8 ++ '-' :: (digits.drop 8).take 4 ++ '-' :: (digits.drop 12).take 4 ++
    '-' :: (digits.drop 16).take 4 ++ '-' :: digits.drop 20

/-- `Uuid::to_string`. -/
def Uuid.hyphenated (id : Uuid) : String := String.ofList (hyphenate id.digits)

theorem length_hexDigits (hwidth : 0 < width) (hn : n < 16 ^ width) :
    (hexDigits width n).length = width := by
  have hle : (Nat.toDigits 16 n).length ≤ width := by
    rw [Nat.length_toDigits_le_iff (by decide) hwidth]
    exact hn
  rw [hexDigits, List.length_append, List.length_replicate]
  omega

theorem Uuid.length_digits (id : Uuid) : id.digits.length = 32 :=
  length_hexDigits (by decide) id.isLt

theorem Uuid.digits_injective : Function.Injective Uuid.digits := by
  intro a b h
  exact Fin.ext (hexDigits_inj (by decide) a.isLt b.isLt h)

theorem Uuid.simple_injective : Function.Injective Uuid.simple := by
  intro a b h
  exact Uuid.digits_injective (String.ofList_injective h)

/-- Take the hyphens out of a text that has them where a UUID does. -/
def unhyphenate (text : List Char) : List Char :=
  text.take 8 ++ (text.drop 9).take 4 ++ (text.drop 14).take 4 ++ (text.drop 19).take 4 ++
    text.drop 24

theorem unhyphenate_hyphenate (h : digits.length = 32) :
    unhyphenate (hyphenate digits) = digits := by
  have h₁ : (digits.take 8).length = 8 := by rw [List.length_take]; omega
  have h₂ : ((digits.drop 8).take 4).length = 4 := by rw [List.length_take, List.length_drop]; omega
  have h₃ : ((digits.drop 12).take 4).length = 4 := by
    rw [List.length_take, List.length_drop]
    omega
  have h₄ : ((digits.drop 16).take 4).length = 4 := by
    rw [List.length_take, List.length_drop]
    omega
  have hdigits : digits.take 8 ++ ((digits.drop 8).take 4 ++ ((digits.drop 12).take 4 ++
      ((digits.drop 16).take 4 ++ digits.drop 20))) = digits := by
    have hcut (n : Nat) : (digits.drop n).take 4 ++ digits.drop (n + 4) = digits.drop n := by
      rw [← List.drop_drop, List.take_append_drop]
    rw [hcut 16, hcut 12, hcut 8, List.take_append_drop]
  rw [hyphenate]
  generalize digits.take 8 = a at *
  generalize (digits.drop 8).take 4 = b at *
  generalize (digits.drop 12).take 4 = c at *
  generalize (digits.drop 16).take 4 = d at *
  generalize digits.drop 20 = e at *
  rw [← hdigits]
  simp (disch := omega) [unhyphenate, List.drop_append, h₁, h₂, h₃, h₄, List.drop_of_length_le]

theorem Uuid.hyphenated_injective : Function.Injective Uuid.hyphenated := by
  intro a b h
  have h := congrArg unhyphenate (String.ofList_injective h)
  rw [unhyphenate_hyphenate a.length_digits, unhyphenate_hyphenate b.length_digits] at h
  exact Uuid.digits_injective h

def hexValue (c : Char) : Option Nat :=
  if '0' ≤ c ∧ c ≤ '9' then some (c.toNat - '0'.toNat)
  else if 'a' ≤ c ∧ c ≤ 'f' then some (c.toNat - 'a'.toNat + 10)
  else if 'A' ≤ c ∧ c ≤ 'F' then some (c.toNat - 'A'.toNat + 10)
  else none

def hexNumber (digits : List Char) : Option Nat :=
  digits.foldlM (fun n c => (hexValue c).map (16 * n + ·)) 0

theorem hexValue_digitChar : ∀ n < 16, hexValue (Nat.digitChar n) = some n := by
  decide

theorem hexNumber_hexDigits (hwidth : 0 < width) (hn : n < 16 ^ width) :
    hexNumber (hexDigits width n) = some n := by
  induction width, hwidth using Nat.le_induction generalizing n with
  | base =>
    have hn : n < 16 := by simpa using hn
    rw [hexDigits_one hn]
    simp [hexNumber, hexValue_digitChar n hn]
  | succ width hwidth ih =>
    rw [Nat.pow_succ] at hn
    have hhigh := ih (n := n / 16) (Nat.div_lt_of_lt_mul (by omega))
    rw [hexNumber] at hhigh
    rw [hexDigits_succ n hwidth, hexNumber, List.foldlM_append, hhigh]
    simp [hexValue_digitChar _ (Nat.mod_lt n (by decide)), Nat.div_add_mod]

def Uuid.ofDigits (digits : List Char) : Option Uuid :=
  if digits.length = 32 then
    (hexNumber digits).bind fun n => if h : n < 2 ^ 128 then some ⟨n, h⟩ else none
  else none

def Uuid.ofHyphenated (text : List Char) : Option Uuid :=
  if hyphenate (unhyphenate text) = text then Uuid.ofDigits (unhyphenate text) else none

/-- Read a UUID with or without hyphens, in braces or as a URN. -/
def Uuid.parse (text : String) : Option Uuid :=
  match text.length with
  | 32 => Uuid.ofDigits text.toList
  | 36 => Uuid.ofHyphenated text.toList
  | 38 =>
    if text.toList.head? = some '{' ∧ text.toList.getLast? = some '}' then
      Uuid.ofHyphenated ((text.toList.drop 1).take 36)
    else none
  | 45 =>
    if "urn:uuid:".toList <+: text.toList then Uuid.ofHyphenated (text.toList.drop 9) else none
  | _ => none

theorem Uuid.ofDigits_digits (id : Uuid) : Uuid.ofDigits id.digits = some id := by
  have hnumber : hexNumber id.digits = some id.val := hexNumber_hexDigits (by decide) id.isLt
  rw [Uuid.ofDigits, if_pos id.length_digits, hnumber, Option.bind_some, dif_pos id.isLt]

theorem length_hyphenate (h : digits.length = 32) : (hyphenate digits).length = 36 := by
  simp [hyphenate, h]

theorem Uuid.parse_simple (id : Uuid) : Uuid.parse id.simple = some id := by
  have hlength : id.simple.length = 32 := by
    rw [← String.length_toList, Uuid.simple, String.toList_ofList, id.length_digits]
  rw [Uuid.parse, hlength, Uuid.simple, String.toList_ofList]
  exact id.ofDigits_digits

theorem Uuid.parse_hyphenated (id : Uuid) : Uuid.parse id.hyphenated = some id := by
  have hlength : id.hyphenated.length = 36 := by
    rw [← String.length_toList, Uuid.hyphenated, String.toList_ofList,
      length_hyphenate id.length_digits]
  rw [Uuid.parse, hlength, Uuid.hyphenated, String.toList_ofList]
  change Uuid.ofHyphenated (hyphenate id.digits) = some id
  rw [Uuid.ofHyphenated, unhyphenate_hyphenate id.length_digits, if_pos rfl, id.ofDigits_digits]

theorem isWhitespace_of_trim (h : trim text = "") : ∀ c ∈ text.toList, isWhitespace c = true := by
  have h := congrArg String.toList h
  rw [trim, String.toList_ofList, String.toList_empty, List.reverse_eq_nil_iff,
    List.dropWhile_eq_nil_iff] at h
  intro c hc
  rw [← List.takeWhile_append_dropWhile (p := isWhitespace) (l := text.toList),
    List.mem_append] at hc
  rcases hc with hc | hc
  · exact List.mem_takeWhile_imp hc
  · exact h c (List.mem_reverse.2 hc)

theorem hexValue_of_isWhitespace (h : isWhitespace c = true) : hexValue c = none := by
  have hrange : ¬ ('0' ≤ c ∧ c ≤ '9') ∧ ¬ ('a' ≤ c ∧ c ≤ 'f') ∧ ¬ ('A' ≤ c ∧ c ≤ 'F') := by
    have hle (a b : Char) : a ≤ b ↔ a.toNat ≤ b.toNat := Iff.rfl
    simp only [hle]
    simp [isWhitespace] at h ⊢
    omega
  rw [hexValue, if_neg hrange.1, if_neg hrange.2.1, if_neg hrange.2.2]

theorem Uuid.parse_blank (h : trim text = "") : Uuid.parse text = none := by
  have hblank := isWhitespace_of_trim h
  have hhyphenated : ∀ l : List Char, (∀ c ∈ l, isWhitespace c = true) →
      Uuid.ofHyphenated l = none := by
    intro l hl
    rw [Uuid.ofHyphenated, if_neg]
    intro he
    have hmem : '-' ∈ l := by
      rw [← he, hyphenate]
      simp
    exact absurd (hl _ hmem) (by decide)
  rw [Uuid.parse]
  split
  · next hlength =>
    rw [Uuid.ofDigits]
    split
    · cases hlist : text.toList with
      | nil => simp [← String.length_toList, hlist] at hlength
      | cons c l =>
        have hc := hexValue_of_isWhitespace (hblank c (by rw [hlist]; exact List.mem_cons_self))
        simp [hexNumber, hc]
    · rfl
  · exact hhyphenated _ hblank
  · rw [if_neg]
    rintro ⟨hhead, -⟩
    exact absurd (hblank _ (List.mem_of_head? hhead)) (by decide)
  · rw [if_neg]
    intro hurn
    have hu := hblank 'u' (hurn.subset (by decide))
    exact absurd hu (by decide)
  · rfl

/-- A library of UUIDs: a parser, and the version-5 UUIDs of the URL namespace. -/
structure UuidLib where
  parseStr : String → Option Uuid
  newV5 : String → Uuid
  parseStr_hyphenated : ∀ id, parseStr id.hyphenated = some id
  parseStr_simple : ∀ id, parseStr id.simple = some id
  parseStr_blank : ∀ text, trim text = "" → parseStr text = none

def UuidLib.ofNewV5 (newV5 : String → Uuid) : UuidLib where
  parseStr := Uuid.parse
  newV5 := newV5
  parseStr_hyphenated := Uuid.parse_hyphenated
  parseStr_simple := Uuid.parse_simple
  parseStr_blank _ := Uuid.parse_blank

end KevinDb
