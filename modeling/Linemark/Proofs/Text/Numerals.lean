import Linemark.Text.Bytes
import Mathlib.Data.List.Basic
import Mathlib.Data.List.Induction
import Mathlib.Data.Nat.Digits.Defs

/-!
# Numerals

What counts as a number in a text is said by a grammar: digits, at least one of them, with a plus
sign in front or none. Reading accepts that and nothing else (`readDecimal?_eq_some_iff`), whatever
the length of the text.

A number has many numerals and is written as one of them. Which one is told by its first character:
neither a plus sign nor the digit zero (`Numeral.toList_decimal_eq_iff`). The key fact is that
digits which do not start with zero are the digits of the number that they stand for.
-/

namespace Linemark

/-! ## Numbers in a text

A number that was written in decimal is read back, so numbers written alike are equal. Their digits
are digits as characters and as bytes, which is what keeps a number apart from whatever is written
next to it: a text is cut at the first mark of some kind, and the marks are no digits. -/

/-! ### Up to a mark -/

section

variable {α : Type} [BEq α] [LawfulBEq α] {mark : α} {before before' after after' : List α}

theorem forall_bne_of_notMem (h : mark ∉ before) : ∀ x ∈ before, (x != mark) = true := by
  intro x hx
  rw [bne_iff_ne]
  rintro rfl
  exact h hx

theorem takeWhile_bne_append (h : mark ∉ before) (after : List α) :
    (before ++ mark :: after).takeWhile (· != mark) = before := by
  rw [List.takeWhile_append_of_pos (forall_bne_of_notMem h)]
  simp

theorem dropWhile_bne_append (h : mark ∉ before) (after : List α) :
    (before ++ mark :: after).dropWhile (· != mark) = mark :: after := by
  rw [List.dropWhile_append_of_pos (forall_bne_of_notMem h)]
  simp

theorem append_mark_inj (h : mark ∉ before) (h' : mark ∉ before') :
    before ++ mark :: after = before' ++ mark :: after' ↔ before = before' ∧ after = after' := by
  constructor
  · intro heq
    have hbefore := congrArg (List.takeWhile (· != mark)) heq
    have hafter := congrArg (List.dropWhile (· != mark)) heq
    rw [takeWhile_bne_append h, takeWhile_bne_append h'] at hbefore
    rw [dropWhile_bne_append h, dropWhile_bne_append h'] at hafter
    exact ⟨hbefore, List.tail_eq_of_cons_eq hafter⟩
  · rintro ⟨rfl, rfl⟩
    rfl

end

/-! ### Numbers -/

theorem utf8_injective : Function.Injective utf8 := by
  intro s t h
  have harrays : s.toList.utf8Encode = t.toList.utf8Encode := congrArg List.toByteArray h
  rw [String.utf8Encode_toList, String.utf8Encode_toList] at harrays
  exact String.toByteArray_inj.mp harrays

theorem toList_decimal (n : Nat) : (decimal n).toList = Nat.toDigits 10 n := String.toList_ofList

theorem isDigit_of_mem_decimal {n : Nat} {c : Char} (h : c ∈ (decimal n).toList) :
    c.isDigit = true := by
  rw [toList_decimal] at h
  exact Nat.isDigit_of_mem_toDigits (by decide) (by decide) h

/-- Digits are read back. -/
theorem readDigits?_decimal (n : Nat) : readDigits? (decimal n).toList = some n := by
  have hne : (decimal n).toList.isEmpty = false := by
    rw [toList_decimal, List.isEmpty_eq_false_iff]
    exact Nat.toDigits_ne_nil
  have hall : (decimal n).toList.all Char.isDigit = true :=
    List.all_eq_true.mpr fun c hc ↦ isDigit_of_mem_decimal hc
  rw [readDigits?, hne, hall, toList_decimal, Nat.ofDigitChars_ten_toDigits]
  rfl

/-- **Numbers are read back**: what was written does not start with a plus sign. -/
theorem readDecimal?_decimal (n : Nat) : readDecimal? (decimal n).toList = some n := by
  rw [readDecimal?]
  · exact readDigits?_decimal n
  · intro digits h
    have hplus : '+' ∈ (decimal n).toList := by
      rw [h]
      exact List.mem_cons_self
    exact absurd (isDigit_of_mem_decimal hplus) (by decide)

theorem decimal_injective : Function.Injective decimal := by
  intro m n h
  have hread := readDecimal?_decimal m
  rw [h, readDecimal?_decimal] at hread
  exact (Option.some.inj hread).symm

theorem mem_utf8_decimal {n : Nat} {b : UInt8} (h : b ∈ utf8 (decimal n)) :
    0x30 ≤ b ∧ b ≤ 0x39 := by
  obtain ⟨c, hc, hb⟩ := List.mem_flatMap.mp h
  have hdigit := isDigit_of_mem_decimal hc
  have hbounds : 48 ≤ c.val ∧ c.val ≤ 57 := by simpa [Char.isDigit] using hdigit
  -- a digit is encoded by one byte
  have hsize : c.utf8Size = 1 := by
    rw [Char.utf8Size_eq_one_iff]
    exact UInt32.le_trans hbounds.2 (by decide)
  rw [String.utf8EncodeChar_eq_singleton hsize, List.mem_singleton] at hb
  subst hb
  rw [UInt32.le_iff_toNat_le, UInt32.le_iff_toNat_le] at hbounds
  rw [UInt8.le_iff_toNat_le, UInt8.le_iff_toNat_le, UInt32.toNat_toUInt8]
  simp at hbounds ⊢
  omega

private theorem colon_notMem_decimal (n : Nat) : (0x3A : UInt8) ∉ utf8 (decimal n) :=
  fun h ↦ absurd (mem_utf8_decimal h).2 (by decide)

/-- A number ends at the colon behind it, also where more follows. -/
theorem utf8_decimal_append_prefix_iff {m n : Nat} {bs cs : Bytes} :
    utf8 (decimal m) ++ 0x3A :: bs <+: utf8 (decimal n) ++ 0x3A :: cs ↔ m = n ∧ bs <+: cs := by
  constructor
  · rintro ⟨rest, h⟩
    rw [List.append_assoc, List.cons_append,
      append_mark_inj (colon_notMem_decimal m) (colon_notMem_decimal n)] at h
    exact ⟨decimal_injective (utf8_injective h.1), rest, h.2⟩
  · rintro ⟨rfl, h⟩
    rwa [List.prefix_append_right_inj, List.cons_prefix_cons, and_iff_right rfl]

/-! ## The grammar of numerals -/

/-- The number that a digit stands for. -/
def digitValue (c : Char) : Nat := c.toNat - '0'.toNat

/-- The number that digits stand for: the last of them counts ones, the one before it tens. -/
def positionalValue (digits : List Char) : Nat := Nat.ofDigits 10 (digits.reverse.map digitValue)

/-- Digits, at least one of them. -/
structure IsDigits (digits : List Char) : Prop where
  /-- There is one. -/
  ne_nil : digits ≠ []
  /-- Each is a decimal digit. -/
  isDigit : ∀ c ∈ digits, c.isDigit = true

/-- A part of a text is a way of writing a number. -/
inductive Numeral : List Char → Nat → Prop
  /-- The number has no sign. -/
  | unsigned {digits : List Char} (h : IsDigits digits) : Numeral digits (positionalValue digits)
  /-- The number has a plus sign. -/
  | signed {digits : List Char} (h : IsDigits digits) :
    Numeral ('+' :: digits) (positionalValue digits)

/-! ### Digits and their value -/

@[simp] theorem positionalValue_append_singleton (digits : List Char) (c : Char) :
    positionalValue (digits ++ [c]) = 10 * positionalValue digits + digitValue c := by
  rw [positionalValue, List.reverse_append, List.reverse_singleton, List.singleton_append,
    List.map_cons, Nat.ofDigits_cons, positionalValue, Nat.add_comm]

private theorem ofDigitChars_eq_positionalValue (digits : List Char) :
    Nat.ofDigitChars 10 digits 0 = positionalValue digits := by
  induction digits using List.reverseRecOn with
  | nil => rfl
  | append_singleton digits c ih =>
    rw [Nat.ofDigitChars_append, ih, Nat.ofDigitChars_cons, Nat.ofDigitChars_nil,
      positionalValue_append_singleton, digitValue]

private theorem digitValue_lt {c : Char} (h : c.isDigit = true) : digitValue c < 10 := by
  have hbounds : 48 ≤ c.toNat ∧ c.toNat ≤ 57 := Char.isDigit_iff_toNat.mp h
  have hzero : '0'.toNat = 48 := rfl
  rw [digitValue]
  omega

private theorem digitChar_digitValue {c : Char} (h : c.isDigit = true) :
    (digitValue c).digitChar = c := by
  have hbounds : 48 ≤ c.toNat ∧ c.toNat ≤ 57 := Char.isDigit_iff_toNat.mp h
  have hvalue := Nat.toNat_digitChar_of_lt_ten (digitValue_lt h)
  have hzero : '0'.toNat = 48 := rfl
  refine Char.toNat_inj.mp ?_
  rw [hvalue, digitValue]
  omega

/-! ### Without leading zeros -/

private theorem head?_toDigits_ne_zero {n : Nat} (h : 0 < n) :
    (Nat.toDigits 10 n).head? ≠ some '0' := by
  induction n using Nat.strong_induction_on with
  | _ n ih =>
    by_cases hlt : n < 10
    · rw [Nat.toDigits_of_lt_base hlt, List.head?_singleton, Ne, Option.some.injEq,
        Nat.digitChar_eq_zero]
      exact Nat.ne_of_gt h
    · -- the first digit is that of a tenth of the number
      have hge : 10 ≤ n := Nat.le_of_not_lt hlt
      rw [Nat.toDigits_of_base_le (by decide) hge,
        List.head?_append_of_ne_nil _ Nat.toDigits_ne_nil]
      exact ih (n / 10) (Nat.div_lt_self h (by decide)) (Nat.div_pos hge (by decide))

/-- Digits that do not start with zero are those of the number that they stand for. -/
theorem toDigits_positionalValue {digits : List Char} (h : IsDigits digits)
    (hhead : digits.head? ≠ some '0') : Nat.toDigits 10 (positionalValue digits) = digits := by
  obtain ⟨hne, hall⟩ := h
  induction digits using List.reverseRecOn with
  | nil => contradiction
  | append_singleton digits c ih =>
    have hc : c.isDigit = true := hall c (by simp)
    have hlast : Nat.toDigits 10 (digitValue c) = [c] := by
      rw [Nat.toDigits_of_lt_base (digitValue_lt hc), digitChar_digitValue hc]
    rw [positionalValue_append_singleton]
    by_cases hnil : digits = []
    · subst hnil
      have hvalue : 10 * positionalValue [] + digitValue c = digitValue c := Nat.zero_add _
      rw [hvalue, hlast]
      rfl
    · rw [List.head?_append_of_ne_nil _ hnil] at hhead
      have hdigits := ih hhead hnil fun d hd ↦ hall d (List.mem_append_left [c] hd)
      -- zero is written with a zero in front, so not all of the digits before the last are zero
      have hpos : 0 < positionalValue digits := by
        rw [Nat.pos_iff_ne_zero]
        intro hzero
        rw [hzero, Nat.toDigits_zero] at hdigits
        rw [← hdigits] at hhead
        exact hhead rfl
      rw [← Nat.toDigits_append_toDigits (by decide) hpos (digitValue_lt hc), hdigits, hlast]

/-! ### Reading -/

theorem readDigits?_eq_some_iff {digits : List Char} {n : Nat} :
    readDigits? digits = some n ↔ IsDigits digits ∧ positionalValue digits = n := by
  rw [readDigits?, ofDigitChars_eq_positionalValue]
  by_cases h : IsDigits digits
  · rw [if_neg (by simpa using ⟨h.ne_nil, h.isDigit⟩), Option.some.injEq, and_iff_right h]
  · have hbad : (digits.isEmpty || !digits.all Char.isDigit) = true := by
      by_contra hgood
      obtain ⟨hne, hall⟩ : digits ≠ [] ∧ ∀ c ∈ digits, c.isDigit = true := by simpa using hgood
      exact h ⟨hne, hall⟩
    rw [if_pos hbad]
    simp [h]

private theorem not_isDigits_plus (digits : List Char) : ¬IsDigits ('+' :: digits) := fun h ↦
  absurd (h.isDigit '+' List.mem_cons_self) (by decide)

/-- What is read as a number are the numerals. -/
theorem readDecimal?_eq_some_iff {part : List Char} {n : Nat} :
    readDecimal? part = some n ↔ Numeral part n := by
  fun_cases readDecimal? part with
  | case1 digits =>
    rw [readDigits?_eq_some_iff]
    constructor
    · rintro ⟨h, rfl⟩
      exact .signed h
    · intro h
      cases h with
      | unsigned h => exact absurd h (not_isDigits_plus digits)
      | signed h => exact ⟨h, rfl⟩
  | case2 _ hplus =>
    rw [readDigits?_eq_some_iff]
    constructor
    · rintro ⟨h, rfl⟩
      exact .unsigned h
    · intro h
      cases h with
      | unsigned h => exact ⟨h, rfl⟩
      | signed h => exact absurd rfl (hplus _)

/-! ### Writing -/

namespace Numeral

variable {part : List Char} {n : Nat}

theorem isDigit_or_eq_plus {c : Char} (h : Numeral part n) (hc : c ∈ part) :
    c.isDigit = true ∨ c = '+' := by
  cases h with
  | unsigned h => exact .inl (h.isDigit c hc)
  | signed h =>
    rcases List.mem_cons.mp hc with rfl | hc
    · exact .inr rfl
    · exact .inl (h.isDigit c hc)

/-- One of the numerals of a number is written: that with neither a plus sign nor a zero in
front. -/
theorem toList_decimal_eq_iff (h : Numeral part n) (hpos : 0 < n) :
    (decimal n).toList = part ↔ '+' ∉ part ∧ part.head? ≠ some '0' := by
  constructor
  · rintro rfl
    refine ⟨fun hplus ↦ absurd (isDigit_of_mem_decimal hplus) (by decide), ?_⟩
    rw [toList_decimal]
    exact head?_toDigits_ne_zero hpos
  · rintro ⟨hplus, hhead⟩
    cases h with
    | unsigned h => rw [toList_decimal, toDigits_positionalValue h hhead]
    | signed h => exact absurd List.mem_cons_self hplus

end Numeral

end Linemark
