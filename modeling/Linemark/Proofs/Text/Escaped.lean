import Linemark.Text.Bytes
import Mathlib.Data.List.Basic

/-!
# Escaped bytes are read back

Every byte is written in printable characters (`isPrintable_of_mem_escaped`), and which byte was
written can be told from them (`unescaped?_escaped`). There are three ways of writing a byte, as
itself, as a letter, and as two hexadecimal digits, and they differ in length. So a backslash that
is written as two is not taken for one that introduces something, and an escaped quote is not taken
for the quote that stands behind every byte of a listing.
-/

namespace Linemark

/-- A byte that is a printable character. -/
def IsPrintable (b : UInt8) : Prop := 0x20 ≤ b ∧ b ≤ 0x7E

instance (b : UInt8) : Decidable (IsPrintable b) :=
  inferInstanceAs (Decidable (0x20 ≤ b ∧ b ≤ 0x7E))

theorem not_isPrintable_lineFeed : ¬IsPrintable lineFeed := by decide

private theorem isPrintable_hexDigit : ∀ n < 16, IsPrintable (hexDigit n) := by decide

/-! ## Ways of writing a byte -/

/-- The letters that stand for bytes behind a backslash. Quotes and the backslash stand for
themselves. -/
def escapeLetters : List (UInt8 × UInt8) :=
  [(0x74, 0x09), (0x72, 0x0D), (0x6E, 0x0A), (0x27, 0x27), (0x22, 0x22), (0x5C, 0x5C)]

/-- The ways of writing a byte: itself if it is printable, a backslash and a letter, or a
backslash, `x` and two hexadecimal digits. -/
theorem escaped_cases (b : UInt8) :
    (escaped b = [b] ∧ IsPrintable b) ∨
      (∃ letter, escaped b = [0x5C, letter] ∧ (letter, b) ∈ escapeLetters) ∨
      escaped b = [0x5C, 0x78, hexDigit (b.toNat / 16), hexDigit (b.toNat % 16)] := by
  by_cases h : ∃ letter, (letter, b) ∈ escapeLetters
  · have hescaped : ∀ entry ∈ escapeLetters, escaped entry.2 = [0x5C, entry.1] :=
      List.forall_iff_forall_mem.mp (by decide)
    obtain ⟨letter, hletter⟩ := h
    exact .inr (.inl ⟨letter, hescaped _ hletter, hletter⟩)
  · have hne : ∀ entry ∈ escapeLetters, b ≠ entry.2 := by
      intro entry hentry heq
      exact h ⟨entry.1, by rwa [heq]⟩
    obtain ⟨htab, hcr, hlf, hquote, hdouble, hbackslash⟩ :
        b ≠ 0x09 ∧ b ≠ 0x0D ∧ b ≠ 0x0A ∧ b ≠ 0x27 ∧ b ≠ 0x22 ∧ b ≠ 0x5C := by
      simpa [escapeLetters] using hne
    rw [escaped, if_neg htab, if_neg hcr, if_neg hlf, if_neg hquote, if_neg hdouble,
      if_neg hbackslash]
    split
    next hprintable => exact .inl ⟨rfl, hprintable⟩
    next => exact .inr (.inr rfl)

/-- What is written for a byte is printable. -/
theorem isPrintable_of_mem_escaped {b c : UInt8} (h : c ∈ escaped b) : IsPrintable c := by
  rcases escaped_cases b with ⟨hb, hprintable⟩ | ⟨letter, hb, hletter⟩ | hb
  · rw [hb, List.mem_singleton] at h
    exact h ▸ hprintable
  · have hletters : ∀ entry ∈ escapeLetters, IsPrintable entry.1 :=
      List.forall_iff_forall_mem.mp (by decide)
    rw [hb, List.mem_cons, List.mem_singleton] at h
    rcases h with rfl | rfl
    · decide
    · exact hletters _ hletter
  · have htoNat := b.toNat_lt
    rw [hb] at h
    simp only [List.mem_cons, List.not_mem_nil, or_false] at h
    rcases h with rfl | rfl | rfl | rfl
    · decide
    · decide
    · exact isPrintable_hexDigit _ (by omega)
    · exact isPrintable_hexDigit _ (by omega)

/-! ## Reading a byte back -/

/-- The value of a hexadecimal digit. -/
def hexValue (digit : UInt8) : Nat :=
  if digit ≤ 0x39 then digit.toNat - 0x30 else digit.toNat - 0x57

private theorem hexValue_hexDigit : ∀ n < 16, hexValue (hexDigit n) = n := by decide

/-- The byte that some printable characters are written for. -/
def unescaped? : Bytes → Option UInt8
  | [b] => some b
  | [_, letter] => escapeLetters.lookup letter
  | [_, _, high, low] => some (UInt8.ofNat (16 * hexValue high + hexValue low))
  | _ => none

/-- **A byte is read back.** -/
theorem unescaped?_escaped (b : UInt8) : unescaped? (escaped b) = some b := by
  rcases escaped_cases b with ⟨hb, -⟩ | ⟨letter, hb, hletter⟩ | hb
  · rw [hb, unescaped?]
  · have hletters : ∀ entry ∈ escapeLetters, escapeLetters.lookup entry.1 = some entry.2 :=
      List.forall_iff_forall_mem.mp (by decide)
    rw [hb, unescaped?]
    exact hletters _ hletter
  · have htoNat := b.toNat_lt
    have hdigits : 16 * (b.toNat / 16) + b.toNat % 16 = b.toNat := Nat.div_add_mod b.toNat 16
    rw [hb, unescaped?, hexValue_hexDigit _ (by omega), hexValue_hexDigit _ (by omega), hdigits,
      UInt8.ofNat_toNat]

theorem escaped_injective : Function.Injective escaped := by
  intro b c h
  have hread := congrArg unescaped? h
  rw [unescaped?_escaped, unescaped?_escaped] at hread
  exact Option.some.inj hread

end Linemark
