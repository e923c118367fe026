import Mathlib

namespace KevinDb
set_option autoImplicit true

theorem not_mem_toString_nat (hc : c.isDigit = false) (n : Nat) : c ∉ (toString n).toList := by
  intro h
  rw [Nat.toString_eq_repr, Nat.toList_repr] at h
  rw [Nat.isDigit_of_mem_toDigits (by decide) (by decide) h] at hc
  cases hc

theorem toString_nat_injective : Function.Injective (toString : Nat → String) := by
  intro m n h
  have h := congrArg (fun s : String => Nat.ofDigitChars 10 s.toList 0) h
  simpa [Nat.ofDigitChars_toDigits] using h

theorem toList_toString_negSucc (n : Nat) :
    (toString (Int.negSucc n)).toList = '-' :: (toString (n + 1)).toList := by
  rw [show toString (Int.negSucc n) = "-" ++ toString (n + 1) from rfl, String.toList_append]
  rfl

theorem not_mem_toString_int (hc : c.isDigit = false) (hminus : c ≠ '-') (n : Int) :
    c ∉ (toString n).toList := by
  cases n with
  | ofNat n => exact not_mem_toString_nat hc n
  | negSucc n =>
    rw [toList_toString_negSucc, List.mem_cons, not_or]
    exact ⟨hminus, not_mem_toString_nat hc (n + 1)⟩

theorem toString_ofNat_ne_negSucc (m n : Nat) :
    toString (Int.ofNat m) ≠ toString (Int.negSucc n) := by
  intro h
  have hdigits := not_mem_toString_nat (c := '-') rfl m
  rw [show toString m = toString (Int.ofNat m) from rfl, h, toList_toString_negSucc] at hdigits
  exact hdigits List.mem_cons_self

theorem toString_int_injective : Function.Injective (toString : Int → String) := by
  intro m n h
  cases m with
  | ofNat m =>
    cases n with
    | ofNat n => exact congrArg Int.ofNat (toString_nat_injective h)
    | negSucc n => exact absurd h (toString_ofNat_ne_negSucc m n)
  | negSucc m =>
    cases n with
    | ofNat n => exact absurd h.symm (toString_ofNat_ne_negSucc n m)
    | negSucc n =>
      have htext := congrArg String.toList h
      rw [toList_toString_negSucc, toList_toString_negSucc, List.cons.injEq] at htext
      have hnat := toString_nat_injective (String.toList_inj.1 htext.2)
      exact congrArg Int.negSucc (Nat.succ.inj hnat)

/-- `str::parse::<usize>`. -/
def parseUsize (text : String) : Option Nat :=
  let digits := if text.toList.head? = some '+' then text.toList.tail else text.toList
  if digits ≠ [] ∧ digits.all Char.isDigit then
    (some (Nat.ofDigitChars 10 digits 0)).filter (· < 2 ^ 64)
  else none

theorem parseUsize_toString (hn : n < 2 ^ 64) : parseUsize (toString n) = some n := by
  have hdigits : (toString n).toList = Nat.toDigits 10 n := by
    rw [Nat.toString_eq_repr, Nat.toList_repr]
  have hall : ∀ c ∈ Nat.toDigits 10 n, c.isDigit := fun c hc =>
    Nat.isDigit_of_mem_toDigits (by decide) (by decide) hc
  have hplus : (Nat.toDigits 10 n).head? ≠ some '+' := fun h =>
    absurd (hall _ (List.mem_of_head? h)) (by decide)
  rw [parseUsize, hdigits, if_neg hplus, if_pos ⟨Nat.toDigits_ne_nil, List.all_eq_true.2 hall⟩,
    Nat.ofDigitChars_ten_toDigits, Option.filter_some, if_pos (decide_eq_true hn)]

/-- The sign of a number, and what comes after it. -/
def splitSign : List Char → Bool × List Char
  | '-' :: digits => (true, digits)
  | '+' :: digits => (false, digits)
  | digits => (false, digits)

/-- `str::parse::<i64>`. -/
def parseI64 (text : String) : Option Int :=
  let (negative, digits) := splitSign text.toList
  if digits ≠ [] ∧ digits.all Char.isDigit then
    let value : Int := Nat.ofDigitChars 10 digits 0
    (some (if negative then -value else value)).filter fun value =>
      -2 ^ 63 ≤ value ∧ value ≤ 2 ^ 63 - 1
  else none

theorem splitSign_of_digit {c : Char} {digits : List Char} (hc : c.isDigit) :
    splitSign (c :: digits) = (false, c :: digits) := by
  rw [splitSign]
  · intro _ h
    rw [(List.cons.inj h).1] at hc
    cases hc
  · intro _ h
    rw [(List.cons.inj h).1] at hc
    cases hc

theorem parseI64_toString {n : Int} (hn : -2 ^ 63 ≤ n ∧ n ≤ 2 ^ 63 - 1) :
    parseI64 (toString n) = some n := by
  have hdigits : ∀ m : Nat, (toString m).toList = Nat.toDigits 10 m := by
    intro m
    rw [Nat.toString_eq_repr, Nat.toList_repr]
  have hall : ∀ m : Nat, (Nat.toDigits 10 m).all Char.isDigit := fun m =>
    List.all_eq_true.2 fun c hc => Nat.isDigit_of_mem_toDigits (by decide) (by decide) hc
  cases n with
  | ofNat m =>
    have hsign : splitSign (Nat.toDigits 10 m) = (false, Nat.toDigits 10 m) := by
      obtain ⟨c, digits, hcons⟩ := List.exists_cons_of_ne_nil (Nat.toDigits_ne_nil (b := 10) (n := m))
      have hc := List.all_eq_true.1 (hall m) c (hcons ▸ List.mem_cons_self)
      rw [hcons, splitSign_of_digit hc]
    rw [parseI64, show toString (Int.ofNat m) = toString m from rfl, hdigits, hsign]
    dsimp only
    rw [if_pos ⟨Nat.toDigits_ne_nil, hall m⟩, Nat.ofDigitChars_ten_toDigits, if_neg (by decide),
      Option.filter_some]
    exact if_pos (decide_eq_true hn)
  | negSucc m =>
    rw [parseI64, toList_toString_negSucc, hdigits, splitSign]
    dsimp only
    rw [if_pos ⟨Nat.toDigits_ne_nil, hall (m + 1)⟩, Nat.ofDigitChars_ten_toDigits, if_pos rfl,
      Option.filter_some]
    exact if_pos (decide_eq_true hn)

/-- `char::is_whitespace`. -/
def isWhitespace (c : Char) : Bool :=
  (9 ≤ c.toNat && c.toNat ≤ 13) || (0x2000 ≤ c.toNat && c.toNat ≤ 0x200a) ||
    [0x20, 0x85, 0xa0, 0x1680, 0x2028, 0x2029, 0x202f, 0x205f, 0x3000].contains c.toNat

/-- `str::trim`. -/
def trim (text : String) : String :=
  String.ofList
    (((text.toList.dropWhile isWhitespace).reverse.dropWhile isWhitespace).reverse)

/-- `str::trim`, of the characters of a text. -/
def trimChars (text : List Char) : List Char :=
  (text.dropWhile isWhitespace).rdropWhile isWhitespace

theorem trimChars_trimChars (text : List Char) : trimChars (trimChars text) = trimChars text := by
  have hfront : (trimChars text).dropWhile isWhitespace = trimChars text := by
    rw [List.dropWhile_eq_self_iff]
    intro hlength
    have hprefix : (text.dropWhile isWhitespace).rdropWhile isWhitespace <+:
        text.dropWhile isWhitespace :=
      List.rdropWhile_prefix isWhitespace _
    have hhead := List.dropWhile_eq_self_iff.1
      (List.dropWhile_idempotent isWhitespace text) (Nat.lt_of_lt_of_le hlength hprefix.length_le)
    rwa [← hprefix.getElem hlength] at hhead
  rw [trimChars, hfront, trimChars, List.rdropWhile_idempotent]

theorem trimChars_eq_self {text : List Char} (hhead : text.head?.any isWhitespace = false)
    (hlast : text.getLast?.any isWhitespace = false) : trimChars text = text := by
  have hfront : text.dropWhile isWhitespace = text := by
    cases text with
    | nil => rfl
    | cons c text =>
      rw [List.dropWhile_cons_of_neg]
      rw [← Bool.not_eq_true] at hhead
      exact hhead
  rw [trimChars, hfront, List.rdropWhile_eq_self_iff]
  intro hne
  rw [List.getLast?_eq_some_getLast hne, Option.any_some] at hlast
  rw [hlast]
  exact Bool.false_ne_true

theorem exists_trimChars (text : List Char) : ∃ front back, text = front ++ trimChars text ++ back ∧
    (∀ c ∈ front, isWhitespace c) ∧ ∀ c ∈ back, isWhitespace c := by
  refine ⟨text.takeWhile isWhitespace, (text.dropWhile isWhitespace).rtakeWhile isWhitespace, ?_,
    fun c hc => List.mem_takeWhile_imp hc, fun c hc => List.mem_rtakeWhile_imp hc⟩
  rw [List.append_assoc, trimChars, List.rdropWhile_append_rtakeWhile,
    List.takeWhile_append_dropWhile]

theorem digitChar_inj : ∀ m < 16, ∀ n < 16, Nat.digitChar m = Nat.digitChar n → m = n := by
  decide

theorem digitChar_ne_colon : ∀ n < 16, Nat.digitChar n ≠ ':' := by
  decide

/-- The hexadecimal digits of a number, with zeros in front up to the width. -/
def hexDigits (width n : Nat) : List Char :=
  List.replicate (width - (Nat.toDigits 16 n).length) '0' ++ Nat.toDigits 16 n

theorem hexDigits_succ (n : Nat) (hwidth : 0 < width) :
    hexDigits (width + 1) n = hexDigits width (n / 16) ++ [(n % 16).digitChar] := by
  unfold hexDigits
  by_cases hn : n < 16
  · rw [Nat.toDigits_of_lt_base hn, Nat.div_eq_of_lt hn, Nat.mod_eq_of_lt hn, Nat.toDigits_zero,
      List.length_singleton, List.length_singleton, Nat.add_sub_cancel, ← List.replicate_succ',
      Nat.sub_add_cancel hwidth]
  · rw [Nat.toDigits_of_base_le (by decide) (by omega), List.length_append, List.length_singleton,
      Nat.add_sub_add_right, List.append_assoc]

theorem hexDigits_one {n : Nat} (hn : n < 16) : hexDigits 1 n = [n.digitChar] := by
  rw [hexDigits, Nat.toDigits_of_lt_base hn]
  rfl

theorem hexDigits_inj {m n : Nat} (hwidth : 0 < width) (hm : m < 16 ^ width) (hn : n < 16 ^ width)
    (h : hexDigits width m = hexDigits width n) : m = n := by
  induction width, hwidth using Nat.le_induction generalizing m n with
  | base =>
    rw [hexDigits_one (by simpa using hm), hexDigits_one (by simpa using hn)] at h
    exact digitChar_inj m (by simpa using hm) n (by simpa using hn) (List.cons.inj h).1
  | succ width hwidth ih =>
    rw [hexDigits_succ m hwidth, hexDigits_succ n hwidth] at h
    obtain ⟨hfront, hlast⟩ := List.append_inj' h rfl
    have hlow := digitChar_inj _ (Nat.mod_lt m (by decide)) _ (Nat.mod_lt n (by decide))
      (List.cons.inj hlast).1
    rw [Nat.pow_succ] at hm hn
    have hhigh := ih (Nat.div_lt_of_lt_mul (by omega)) (Nat.div_lt_of_lt_mul (by omega)) hfront
    omega

theorem not_mem_toDigits_hex (n : Nat) : ':' ∉ Nat.toDigits 16 n := by
  induction n using Nat.strongRecOn with
  | ind n ih =>
    by_cases hn : n < 16
    · rw [Nat.toDigits_of_lt_base hn, List.mem_singleton]
      exact (digitChar_ne_colon n hn).symm
    · rw [Nat.toDigits_of_base_le (by decide) (by omega), List.mem_append, List.mem_singleton,
        not_or]
      exact ⟨ih _ (by omega), (digitChar_ne_colon _ (Nat.mod_lt n (by decide))).symm⟩

theorem not_mem_hexDigits (width n : Nat) : ':' ∉ hexDigits width n := by
  rw [hexDigits, List.mem_append, not_or]
  refine ⟨?_, not_mem_toDigits_hex n⟩
  intro h
  exact absurd (List.eq_of_mem_replicate h) (by decide)

/-- The parts into which a separator cuts a row of texts. -/
def pieces (separator : Char) (texts : List String) : List (List Char) :=
  texts.flatMap fun text => text.toList.splitOn separator

theorem splitOn_intercalate_eq (separator : Char) (hne : texts ≠ []) :
    ([separator].intercalate (texts.map String.toList)).splitOn separator =
      pieces separator texts := by
  induction texts with
  | nil => exact absurd rfl hne
  | cons text texts ih =>
    cases texts with
    | nil => simp [pieces]
    | cons next texts =>
      rw [List.map_cons, List.intercalate_cons_of_ne_nil (by simp), List.append_assoc,
        List.singleton_append, List.splitOn_append_cons_self, ih (List.cons_ne_nil _ _)]
      rfl

theorem splitOn_injective (separator : Char) :
    Function.Injective fun text : List Char => text.splitOn separator :=
  Function.LeftInverse.injective fun _ => List.intercalate_splitOn separator

/-- Two joins are the same text exactly if the separator cuts the texts into the same parts. -/
theorem intercalate_eq_iff {separator : Char} (hne : texts ≠ []) (hne' : texts' ≠ []) :
    (String.singleton separator).intercalate texts =
        (String.singleton separator).intercalate texts' ↔
      pieces separator texts = pieces separator texts' := by
  rw [← String.toList_inj, String.toList_intercalate, String.toList_intercalate,
    String.toList_singleton]
  constructor
  · intro h
    rw [← splitOn_intercalate_eq separator hne, ← splitOn_intercalate_eq separator hne', h]
  · intro h
    rw [← splitOn_intercalate_eq separator hne, ← splitOn_intercalate_eq separator hne'] at h
    exact splitOn_injective separator h

theorem pieces_append : pieces separator (texts ++ texts') =
    pieces separator texts ++ pieces separator texts' :=
  List.flatMap_append

/-- A text without separator is a part of its own. -/
theorem pieces_cons (h : separator ∉ text.toList) :
    pieces separator (text :: texts) = text.toList :: pieces separator texts := by
  rw [pieces, List.flatMap_cons, List.splitOn_eq_singleton h]
  rfl

theorem pieces_singleton (separator : Char) (text : String) :
    pieces separator [text] = text.toList.splitOn separator := by
  simp [pieces]

/-- A separator that the first parts do not have cuts a list in one way. -/
theorem append_cons_inj_left {a a' b b' : List α} {c : α} (h : c ∉ a) (h' : c ∉ a')
    (heq : a ++ c :: b = a' ++ c :: b') : a = a' ∧ b = b' := by
  rcases List.append_eq_append_iff.1 heq with ⟨more, rfl, hmore⟩ | ⟨more, rfl, hmore⟩
  · cases more with
    | nil => exact ⟨(List.append_nil a).symm, (List.cons.inj hmore).2⟩
    | cons d more =>
      obtain ⟨rfl, -⟩ := List.cons.inj hmore
      exact absurd (List.mem_append_right a List.mem_cons_self) h'
  · cases more with
    | nil => exact ⟨List.append_nil a', (List.cons.inj hmore).2.symm⟩
    | cons d more =>
      obtain ⟨rfl, -⟩ := List.cons.inj hmore
      exact absurd (List.mem_append_right a' List.mem_cons_self) h

/-- A separator that the last parts do not have cuts a list in one way. -/
theorem append_cons_inj_right {a a' b b' : List α} {c : α} (h : c ∉ b) (h' : c ∉ b')
    (heq : a ++ c :: b = a' ++ c :: b') : a = a' ∧ b = b' := by
  have hreverse := congrArg List.reverse heq
  rw [List.reverse_append, List.reverse_append, List.reverse_cons, List.reverse_cons,
    List.append_assoc, List.append_assoc, List.singleton_append, List.singleton_append] at hreverse
  obtain ⟨hlast, hfirst⟩ := append_cons_inj_left (mt List.mem_reverse.1 h)
    (mt List.mem_reverse.1 h') hreverse
  exact ⟨List.reverse_inj.1 hfirst, List.reverse_inj.1 hlast⟩

/-- `str::splitn`: at most so many parts, the last of which is all that is left. -/
def splitN (separator : Char) : Nat → List Char → List (List Char)
  | 0, _ => []
  | 1, text => [text]
  | n + 2, text =>
    if separator ∈ text then
      text.takeWhile (· ≠ separator) ::
        splitN separator (n + 1) (text.dropWhile (· ≠ separator)).tail
    else [text]

/-- A first part without separator is cut off. -/
theorem splitN_cons {separator : Char} {part rest : List Char} (hpart : separator ∉ part) (n : Nat) :
    splitN separator (n + 2) (part ++ separator :: rest) = part :: splitN separator (n + 1) rest := by
  have hne : ∀ c ∈ part, decide (c ≠ separator) = true := by
    rintro c hc
    exact decide_eq_true fun heq => hpart (heq ▸ hc)
  rw [splitN, if_pos (List.mem_append_right part List.mem_cons_self),
    List.takeWhile_append_of_pos hne, List.dropWhile_append_of_pos hne]
  simp

end KevinDb
