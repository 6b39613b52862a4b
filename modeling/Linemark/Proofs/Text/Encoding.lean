import Linemark.Proofs.Text.Numerals
import Linemark.Text.Bytes

/-!
# Well-formed encodings

`IsScalar` is the table of the byte strings that encode one scalar value, written out row by row
and without a decoder. It is the table of what Lean itself writes (`isScalar_iff_exists_char`), and
the table that `scalarLength` reads (`scalarLength_append`, `exists_isScalar_of_scalarLength_ne`):
at any place it finds the encoding that begins there, if one does.

What a display rests on is that encodings cannot overlap (`IsScalar.eq_of_overlap`). Every byte of
an encoding but its first goes on with an encoding and its first does not, so an encoding that
begins inside another begins where that one does; and of two that begin at the same place neither
is longer.
-/

namespace Linemark

/-! ## The table -/

/-- A byte that may be second in an encoding with the given first byte. The table narrows the range
of second bytes in four of its rows. -/
structure IsSecond (a b : UInt8) : Prop where
  /-- It goes on with an encoding. -/
  continuation : isContinuation b = true
  /-- Three bytes are not used where two would do. -/
  shortest_of_three : a = 0xE0 → 0xA0 ≤ b
  /-- Surrogates are not encoded. -/
  not_surrogate : a = 0xED → b ≤ 0x9F
  /-- Four bytes are not used where three would do. -/
  shortest_of_four : a = 0xF0 → 0x90 ≤ b
  /-- Numbers above 10FFFF are not encoded. -/
  not_too_large : a = 0xF4 → b ≤ 0x8F

/-- The well-formed encodings of a single scalar value, by their length. -/
inductive IsScalar : Bytes → Prop
  /-- A byte of ASCII. -/
  | one {a : UInt8} (ha : a ≤ 0x7F) : IsScalar [a]
  /-- First bytes C0 and C1 would encode what one byte encodes. -/
  | two {a b : UInt8} (ha : 0xC2 ≤ a ∧ a ≤ 0xDF) (hb : IsSecond a b) : IsScalar [a, b]
  /-- From E0 A0 80, without the surrogates. -/
  | three {a b c : UInt8} (ha : 0xE0 ≤ a ∧ a ≤ 0xEF) (hb : IsSecond a b)
      (hc : isContinuation c = true) : IsScalar [a, b, c]
  /-- From F0 90 80 80 to F4 8F BF BF. -/
  | four {a b c d : UInt8} (ha : 0xF0 ≤ a ∧ a ≤ 0xF4) (hb : IsSecond a b)
      (hc : isContinuation c = true) (hd : isContinuation d = true) : IsScalar [a, b, c, d]

theorem isContinuation_iff {b : UInt8} :
    isContinuation b = true ↔ 0x80 ≤ b.toNat ∧ b.toNat ≤ 0xBF := by
  simp [isContinuation, UInt8.le_iff_toNat_le]

private theorem isSecond_iff {a b : UInt8} :
    IsSecond a b ↔ (0x80 ≤ b.toNat ∧ b.toNat ≤ 0xBF) ∧ (a.toNat = 0xE0 → 0xA0 ≤ b.toNat) ∧
      (a.toNat = 0xED → b.toNat ≤ 0x9F) ∧ (a.toNat = 0xF0 → 0x90 ≤ b.toNat) ∧
      (a.toNat = 0xF4 → b.toNat ≤ 0x8F) := by
  have hfields : IsSecond a b ↔ isContinuation b = true ∧ (a = 0xE0 → 0xA0 ≤ b) ∧
      (a = 0xED → b ≤ 0x9F) ∧ (a = 0xF0 → 0x90 ≤ b) ∧ (a = 0xF4 → b ≤ 0x8F) :=
    ⟨fun ⟨hb, h₁, h₂, h₃, h₄⟩ ↦ ⟨hb, h₁, h₂, h₃, h₄⟩,
      fun ⟨hb, h₁, h₂, h₃, h₄⟩ ↦ ⟨hb, h₁, h₂, h₃, h₄⟩⟩
  simp [hfields, isContinuation_iff, UInt8.le_iff_toNat_le, ← UInt8.toNat_inj]

/-! ## The table is that of the encoder -/

theorem isScalar_utf8EncodeChar (char : Char) : IsScalar (String.utf8EncodeChar char) := by
  -- the gap of the surrogates and the upper end are properties of the type
  have hvalid : char.val.toNat < 0xD800 ∨ 0xDFFF < char.val.toNat ∧ char.val.toNat < 0x110000 :=
    char.valid
  fun_cases String.utf8EncodeChar char with
  | case1 =>
    apply IsScalar.one
    simp only [UInt8.le_iff_toNat_le, UInt8.toNat_ofNat', UInt8.reduceToNat]
    omega
  | case2 =>
    apply IsScalar.two
    all_goals simp only [isSecond_iff, UInt8.le_iff_toNat_le, UInt8.toNat_ofNat', UInt8.reduceToNat]
    all_goals omega
  | case3 =>
    apply IsScalar.three
    all_goals simp only [isSecond_iff, isContinuation_iff, UInt8.le_iff_toNat_le,
      UInt8.toNat_ofNat', UInt8.reduceToNat]
    all_goals omega
  | case4 =>
    apply IsScalar.four
    all_goals simp only [isSecond_iff, isContinuation_iff, UInt8.le_iff_toNat_le,
      UInt8.toNat_ofNat', UInt8.reduceToNat]
    all_goals omega

theorem exists_char_val_eq {n : Nat} (h : n.isValidChar) : ∃ char : Char, char.val.toNat = n :=
  ⟨Char.ofNatAux n h, rfl⟩

/-- The scalar value is read off the low bits of the bytes of its row. -/
theorem IsScalar.exists_char {e : Bytes} (h : IsScalar e) :
    ∃ char : Char, e = String.utf8EncodeChar char := by
  cases h with
  | @one a ha =>
    simp only [UInt8.le_iff_toNat_le, UInt8.reduceToNat] at ha
    obtain ⟨char, hchar⟩ := exists_char_val_eq (n := a.toNat) (.inl (by omega))
    refine ⟨char, ?_⟩
    fun_cases String.utf8EncodeChar char with
    | case1 =>
      simp only [List.cons.injEq, and_true, ← UInt8.toNat_inj, UInt8.toNat_ofNat']
      omega
    | case2 | case3 | case4 => omega
  | @two a b ha hb =>
    simp only [isSecond_iff, UInt8.le_iff_toNat_le, UInt8.reduceToNat] at ha hb
    obtain ⟨char, hchar⟩ :=
      exists_char_val_eq (n := (a.toNat - 0xC0) * 64 + (b.toNat - 0x80)) (.inl (by omega))
    refine ⟨char, ?_⟩
    fun_cases String.utf8EncodeChar char with
    | case2 =>
      simp only [List.cons.injEq, and_true, ← UInt8.toNat_inj, UInt8.toNat_ofNat']
      omega
    | case1 | case3 | case4 => omega
  | @three a b c ha hb hc =>
    simp only [isSecond_iff, isContinuation_iff, UInt8.le_iff_toNat_le, UInt8.reduceToNat]
      at ha hb hc
    have hvalid : ((a.toNat - 0xE0) * 4096 + (b.toNat - 0x80) * 64 +
        (c.toNat - 0x80)).isValidChar := by
      rw [Nat.isValidChar]
      omega
    obtain ⟨char, hchar⟩ := exists_char_val_eq hvalid
    refine ⟨char, ?_⟩
    fun_cases String.utf8EncodeChar char with
    | case3 =>
      simp only [List.cons.injEq, and_true, ← UInt8.toNat_inj, UInt8.toNat_ofNat']
      omega
    | case1 | case2 | case4 => omega
  | @four a b c d ha hb hc hd =>
    simp only [isSecond_iff, isContinuation_iff, UInt8.le_iff_toNat_le, UInt8.reduceToNat]
      at ha hb hc hd
    have hvalid : ((a.toNat - 0xF0) * 262144 + (b.toNat - 0x80) * 4096 + (c.toNat - 0x80) * 64 +
        (d.toNat - 0x80)).isValidChar := by
      rw [Nat.isValidChar]
      omega
    obtain ⟨char, hchar⟩ := exists_char_val_eq hvalid
    refine ⟨char, ?_⟩
    fun_cases String.utf8EncodeChar char with
    | case4 =>
      simp only [List.cons.injEq, and_true, ← UInt8.toNat_inj, UInt8.toNat_ofNat']
      omega
    | case1 | case2 | case3 => omega

/-- **The table is complete and exact**: it lists what characters are encoded by. -/
theorem isScalar_iff_exists_char {e : Bytes} :
    IsScalar e ↔ ∃ char : Char, e = String.utf8EncodeChar char := by
  constructor
  · exact IsScalar.exists_char
  · rintro ⟨char, rfl⟩
    exact isScalar_utf8EncodeChar char

/-! ## The first bytes -/

private theorem encodingForm?_map_fst_eq_some_iff {a : UInt8} {n : Nat} :
    (encodingForm? a).map Prod.fst = some n ↔
      n = 2 ∧ (0xC2 ≤ a ∧ a ≤ 0xDF) ∨ n = 3 ∧ (0xE0 ≤ a ∧ a ≤ 0xEF) ∨
        n = 4 ∧ (0xF0 ≤ a ∧ a ≤ 0xF4) := by
  fun_cases encodingForm? a
  all_goals
    simp only [Option.map_some, Option.map_none, Option.some.injEq, reduceCtorEq, false_iff,
      UInt8.le_iff_toNat_le, UInt8.lt_iff_toNat_lt, UInt8.reduceToNat, ← UInt8.toNat_inj] at *
    omega

private theorem encodingForm?_row {a low high : UInt8} {n : Nat}
    (h : encodingForm? a = some (n, low, high)) :
    n = 2 ∧ (0xC2 ≤ a ∧ a ≤ 0xDF) ∨ n = 3 ∧ (0xE0 ≤ a ∧ a ≤ 0xEF) ∨
      n = 4 ∧ (0xF0 ≤ a ∧ a ≤ 0xF4) :=
  encodingForm?_map_fst_eq_some_iff.mp (congrArg (Option.map Prod.fst) h)

private theorem encodingForm?_range {a low high : UInt8} {n : Nat}
    (h : encodingForm? a = some (n, low, high)) (b : UInt8) :
    low ≤ b ∧ b ≤ high ↔ IsSecond a b := by
  rw [isSecond_iff]
  revert h
  fun_cases encodingForm? a with
  | case1 | case9 => nofun
  | _ =>
    rintro ⟨⟩
    simp only [UInt8.le_iff_toNat_le, UInt8.lt_iff_toNat_lt, UInt8.reduceToNat,
      ← UInt8.toNat_inj] at *
    omega

private theorem exists_encodingForm? {a : UInt8} {n : Nat}
    (h : n = 2 ∧ (0xC2 ≤ a ∧ a ≤ 0xDF) ∨ n = 3 ∧ (0xE0 ≤ a ∧ a ≤ 0xEF) ∨
      n = 4 ∧ (0xF0 ≤ a ∧ a ≤ 0xF4)) :
    ¬a ≤ 0x7F ∧ ∃ low high, encodingForm? a = some (n, low, high) ∧
      ∀ b, low ≤ b ∧ b ≤ high ↔ IsSecond a b := by
  constructor
  · simp only [UInt8.le_iff_toNat_le, UInt8.reduceToNat] at h ⊢
    omega
  · obtain ⟨⟨_, low, high⟩, hform, rfl⟩ :=
      Option.map_eq_some_iff.mp (encodingForm?_map_fst_eq_some_iff.mpr h)
    exact ⟨low, high, hform, encodingForm?_range hform⟩

/-! ## Finding an encoding -/

section

variable {e e' bs rest rest' : Bytes}

/-- An encoding is found where it begins, whatever is behind it. -/
theorem scalarLength_append (h : IsScalar e) (rest : Bytes) :
    scalarLength (e ++ rest) = e.length := by
  cases h with
  | one ha => simp [scalarLength, ha]
  | two ha hb =>
    obtain ⟨hfirst, low, high, hform, hrange⟩ := exists_encodingForm? (.inl ⟨rfl, ha⟩)
    simp [scalarLength, hfirst, hform, (hrange _).mpr hb]
  | three ha hb hc =>
    obtain ⟨hfirst, low, high, hform, hrange⟩ := exists_encodingForm? (.inr (.inl ⟨rfl, ha⟩))
    simp [scalarLength, hfirst, hform, (hrange _).mpr hb, hc]
  | four ha hb hc hd =>
    obtain ⟨hfirst, low, high, hform, hrange⟩ := exists_encodingForm? (.inr (.inr ⟨rfl, ha⟩))
    simp [scalarLength, hfirst, hform, (hrange _).mpr hb, hc, hd]

/-- What is found is an encoding. -/
theorem isScalar_take_scalarLength (h : scalarLength bs ≠ 0) :
    IsScalar (bs.take (scalarLength bs)) := by
  revert h
  fun_cases scalarLength bs with
  | case2 first rest hfirst => exact fun _ ↦ .one hfirst
  | case3 first hfirst low high b rest hform hb =>
    intro _
    have hrow : 0xC2 ≤ first ∧ first ≤ 0xDF := by simpa using encodingForm?_row hform
    simp only [Bool.and_eq_true, decide_eq_true_eq] at hb
    exact .two hrow ((encodingForm?_range hform b).mp hb)
  | case5 first hfirst low high b c rest hform hb =>
    intro _
    have hrow : 0xE0 ≤ first ∧ first ≤ 0xEF := by simpa using encodingForm?_row hform
    simp only [Bool.and_eq_true, decide_eq_true_eq] at hb
    exact .three hrow ((encodingForm?_range hform b).mp hb.1) hb.2
  | case7 first hfirst low high b c d rest hform hb =>
    intro _
    have hrow : 0xF0 ≤ first ∧ first ≤ 0xF4 := by simpa using encodingForm?_row hform
    simp only [Bool.and_eq_true, decide_eq_true_eq] at hb
    exact .four hrow ((encodingForm?_range hform b).mp hb.1.1) hb.1.2 hb.2
  | _ => exact fun h ↦ absurd rfl h

theorem exists_isScalar_of_scalarLength_ne (h : scalarLength bs ≠ 0) :
    ∃ e rest, IsScalar e ∧ bs = e ++ rest :=
  ⟨_, _, isScalar_take_scalarLength h, (List.take_append_drop _ bs).symm⟩

/-! ## Encodings do not overlap -/

theorem IsScalar.ne_nil (h : IsScalar e) : e ≠ [] := by cases h <;> simp

theorem IsScalar.length_pos (h : IsScalar e) : 0 < e.length := List.length_pos_iff.mpr h.ne_nil

theorem not_prefix_of_scalarLength_eq (h : scalarLength bs = 0) (he : IsScalar e) : ¬e <+: bs := by
  rintro ⟨rest, rfl⟩
  rw [scalarLength_append he] at h
  exact he.ne_nil (List.eq_nil_of_length_eq_zero h)

private theorem not_isContinuation {a : UInt8} (h : a ≤ 0x7F ∨ 0xC2 ≤ a) :
    isContinuation a = false := by
  rw [Bool.eq_false_iff, ne_eq, isContinuation_iff]
  simp only [UInt8.le_iff_toNat_le, UInt8.reduceToNat] at h
  omega

private theorem IsScalar.isContinuation_head {a : UInt8} {t : Bytes} (h : IsScalar (a :: t)) :
    isContinuation a = false := by
  cases h with
  | one ha => exact not_isContinuation (.inl ha)
  | two ha => exact not_isContinuation (.inr ha.1)
  | three ha => exact not_isContinuation (.inr (UInt8.le_trans (by decide) ha.1))
  | four ha => exact not_isContinuation (.inr (UInt8.le_trans (by decide) ha.1))

theorem IsScalar.isContinuation_of_mem_tail {a b : UInt8} {t : Bytes} (h : IsScalar (a :: t))
    (hb : b ∈ t) : isContinuation b = true := by
  revert b
  cases h with
  | one ha => simp
  | two ha hb => simp [hb.continuation]
  | three ha hb hc => simp [hb.continuation, hc]
  | four ha hb hc hd => simp [hb.continuation, hc, hd]

theorem scalarLength_of_isContinuation {c : UInt8} (h : isContinuation c = true) (rest : Bytes) :
    scalarLength (c :: rest) = 0 := by
  apply Decidable.byContradiction
  intro hne
  obtain ⟨e, rest', he, heq⟩ := exists_isScalar_of_scalarLength_ne hne
  cases e with
  | nil => exact he.ne_nil rfl
  | cons a t =>
    obtain ⟨rfl, -⟩ := List.cons.inj heq
    rw [he.isContinuation_head] at h
    cases h

/-- **Encodings do not overlap**: one that begins inside another begins at its first byte, and then
it is that other one. -/
theorem IsScalar.eq_of_overlap (h : IsScalar e) (h' : IsScalar e') {start : Nat}
    (hstart : start < e.length) (hbegins : e' <+: (e ++ rest).drop start) :
    start = 0 ∧ e' = e := by
  cases start with
  | zero =>
    obtain ⟨rest', heq⟩ := hbegins
    rw [List.drop_zero] at heq
    -- both are what is found at this place
    have hlength : e'.length = e.length := by
      rw [← scalarLength_append h' rest', heq, scalarLength_append h rest]
    exact ⟨rfl, (List.append_inj heq hlength).1⟩
  | succ k =>
    exfalso
    cases e with
    | nil => exact h.ne_nil rfl
    | cons a t =>
      have hk : k < t.length := Nat.lt_of_succ_lt_succ hstart
      have hinside := h.isContinuation_of_mem_tail (t.getElem_mem hk)
      rw [List.cons_append, List.drop_succ_cons, List.drop_append_of_le_length (Nat.le_of_lt hk),
        List.drop_eq_getElem_cons hk] at hbegins
      exact not_prefix_of_scalarLength_eq (scalarLength_of_isContinuation hinside _) h' hbegins

end

/-! ## Texts -/

/-- Bytes that encode a text. -/
def IsText (bs : Bytes) : Prop := ∃ text : String, bs = utf8 text

theorem isText_nil : IsText [] := ⟨"", rfl⟩

theorem IsText.cons {e bs : Bytes} (he : IsScalar e) (h : IsText bs) : IsText (e ++ bs) := by
  obtain ⟨char, rfl⟩ := he.exists_char
  obtain ⟨text, rfl⟩ := h
  refine ⟨String.ofList (char :: text.toList), ?_⟩
  rw [utf8, utf8, String.toList_ofList, List.flatMap_cons]

theorem IsScalar.isText {e : Bytes} (h : IsScalar e) : IsText e := by
  rw [← List.append_nil e]
  exact isText_nil.cons h

@[elab_as_elim]
theorem IsText.induction {motive : (bs : Bytes) → IsText bs → Prop} (nil : motive [] isText_nil)
    (cons : ∀ e bs (he : IsScalar e) (h : IsText bs), motive bs h → motive (e ++ bs) (h.cons he))
    {bs : Bytes} (h : IsText bs) : motive bs h := by
  have hchars : ∀ (chars : List Char) (h : IsText (chars.flatMap String.utf8EncodeChar)),
      motive _ h := by
    intro chars
    induction chars with
    | nil => exact fun _ ↦ nil
    | cons char chars ih =>
      have hrest : IsText (chars.flatMap String.utf8EncodeChar) :=
        ⟨String.ofList chars, by rw [utf8, String.toList_ofList]⟩
      exact fun _ ↦ cons _ _ (isScalar_utf8EncodeChar char) hrest (ih hrest)
  obtain ⟨text, rfl⟩ := h
  exact hchars text.toList _

theorem IsText.append {bs cs : Bytes} (h : IsText bs) (h' : IsText cs) : IsText (bs ++ cs) := by
  obtain ⟨s, rfl⟩ := h
  obtain ⟨t, rfl⟩ := h'
  exact ⟨s ++ t, (utf8_append s t).symm⟩

end Linemark
