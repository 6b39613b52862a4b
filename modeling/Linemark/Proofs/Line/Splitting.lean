import Linemark.Line.Raw
import Mathlib.Data.List.Chain
import Mathlib.Data.List.TakeWhile

/-!
# Splitting and joining

`RawLine.ofBytes` cuts a byte string into lines and `RawLine.join` writes lines back. The two are
inverse to each other, once it is said which lists of lines an input can have: those that are
`RawLine.WellFormed`. So no two inputs have the same lines, and no well-formed list is missed.

## What can follow a terminator

Lines are not independent of their neighbours. Nothing comes after the end of the input, and CR
before LF is read as one terminator. Both are one condition on a terminator and the *bytes* behind
it, `Terminator.CanPrecede`, which is what reading off a line establishes and what writing a line
back needs. Well-formedness speaks of the *line* behind instead; `forall_precedes_iff` translates,
and is the only place where the two neighbours are looked at together.
-/

namespace Linemark

/-! ## Texts -/

/-- A text without line breaks. -/
def Unbroken (text : Bytes) : Prop := ∀ b ∈ text, isBreak b = false

instance (text : Bytes) : Decidable (Unbroken text) :=
  List.decidableBAll (fun b ↦ isBreak b = false) text

theorem unbroken_nil : Unbroken [] := by
  simp [Unbroken]

theorem unbroken_append {text more : Bytes} :
    Unbroken (text ++ more) ↔ Unbroken text ∧ Unbroken more := by
  simp only [Unbroken, List.mem_append]
  constructor
  · intro h
    exact ⟨fun b hb ↦ h b (.inl hb), fun b hb ↦ h b (.inr hb)⟩
  · rintro ⟨h, h'⟩ b (hb | hb)
    · exact h b hb
    · exact h' b hb

theorem unbroken_takeWhile (input : Bytes) : Unbroken (input.takeWhile fun b ↦ !isBreak b) := by
  intro b hb
  simpa using List.mem_takeWhile_imp hb

/-- Bytes at which a text can end: a line break comes first, or nothing at all. -/
def StartsWithBreak (rest : Bytes) : Prop := ∀ b ∈ rest.head?, isBreak b = true

theorem startsWithBreak_dropWhile (input : Bytes) :
    StartsWithBreak (input.dropWhile fun b ↦ !isBreak b) := by
  intro b hb
  have h := List.head?_dropWhile_not (fun b ↦ !isBreak b) input
  rw [Option.mem_def.mp hb] at h
  simpa using h

private theorem takeWhile_append_unbroken {text rest : Bytes} (ht : Unbroken text)
    (hr : StartsWithBreak rest) : (text ++ rest).takeWhile (fun b ↦ !isBreak b) = text := by
  rw [List.takeWhile_append_of_pos fun b hb ↦ by simp [ht b hb]]
  cases rest with
  | nil => simp
  | cons b rest => simp [hr b (by simp)]

private theorem dropWhile_append_unbroken {text rest : Bytes} (ht : Unbroken text)
    (hr : StartsWithBreak rest) : (text ++ rest).dropWhile (fun b ↦ !isBreak b) = rest := by
  rw [List.dropWhile_append_of_pos fun b hb ↦ by simp [ht b hb]]
  cases rest with
  | nil => rfl
  | cons b rest => simp [hr b (by simp)]

/-! ## Terminators -/

namespace Terminator

/-- The bytes can come right after the terminator without changing it. -/
def CanPrecede (t : Terminator) (rest : Bytes) : Prop :=
  (t = .eof → rest = []) ∧ (t = .cr → rest.head? ≠ some lineFeed)

private theorem startsWithBreak_append {t : Terminator} {rest : Bytes} (h : t.CanPrecede rest) :
    StartsWithBreak (t.bytes ++ rest) := by
  intro b hb
  cases t with
  | eof => simp [bytes, h.1 rfl] at hb
  | lf | cr | crlf =>
    simp only [bytes, List.cons_append, List.head?_cons, Option.mem_def, Option.some.injEq] at hb
    subst hb
    decide

end Terminator

namespace RawLine

/-- Reading back a terminator. -/
theorem takeTerminator_append {t : Terminator} {rest : Bytes} (h : t.CanPrecede rest) :
    takeTerminator (t.bytes ++ rest) = (t, rest) := by
  have hne : carriageReturn ≠ lineFeed := by decide
  cases t with
  | lf => simp [Terminator.bytes, takeTerminator]
  | crlf => simp [Terminator.bytes, takeTerminator, hne]
  | eof => simp [Terminator.bytes, takeTerminator, h.1 rfl]
  | cr =>
    have hlf := h.2 rfl
    cases rest with
    | nil => simp [Terminator.bytes, takeTerminator, hne]
    | cons b rest =>
      have hb : b ≠ lineFeed := by simpa using hlf
      simp [Terminator.bytes, takeTerminator, hne, hb]

private theorem takeTerminator_eq {rest : Bytes} (h : StartsWithBreak rest) :
    ∃ t after, takeTerminator rest = (t, after) ∧ t.bytes ++ after = rest ∧ t.CanPrecede after := by
  cases rest with
  | nil => exact ⟨.eof, [], rfl, rfl, by simp [Terminator.CanPrecede]⟩
  | cons b rest =>
    rcases isBreak_iff.mp (h b (by simp)) with rfl | rfl
    · exact ⟨.lf, rest, by simp [takeTerminator], rfl, by simp [Terminator.CanPrecede]⟩
    · have hne : carriageReturn ≠ lineFeed := by decide
      by_cases hlf : rest.head? = some lineFeed
      · obtain ⟨after, rfl⟩ : ∃ after, rest = lineFeed :: after := by
          cases rest with
          | nil => simp at hlf
          | cons c after => exact ⟨after, by simpa using hlf⟩
        exact ⟨.crlf, after, by simp [takeTerminator, hne], rfl, by simp [Terminator.CanPrecede]⟩
      · have hcan : Terminator.cr.CanPrecede rest := by simpa [Terminator.CanPrecede] using hlf
        exact ⟨.cr, rest, takeTerminator_append hcan, rfl, hcan⟩

/-! ## The first line -/

private theorem first_append {text rest : Bytes} (ht : Unbroken text) (hr : StartsWithBreak rest) :
    first (text ++ rest) = (⟨text, (takeTerminator rest).1⟩, (takeTerminator rest).2) := by
  simp only [first, takeWhile_append_unbroken ht hr, dropWhile_append_unbroken ht hr]

/-- The first line of an input has no line break in its text, and stands at the start of the input
with the terminator it is given. -/
theorem first_eq (input : Bytes) :
    ∃ l after, first input = (l, after) ∧ l.bytes ++ after = input ∧ Unbroken l.text ∧
      l.terminator.CanPrecede after := by
  obtain ⟨t, after, ht, hbytes, hcan⟩ := takeTerminator_eq (startsWithBreak_dropWhile input)
  refine ⟨⟨input.takeWhile fun b ↦ !isBreak b, t⟩, after, ?_, ?_, unbroken_takeWhile input, hcan⟩
  · rw [first, ht]
  · rw [bytes, List.append_assoc, hbytes, List.takeWhile_append_dropWhile]

private theorem first_bytes_append {l : RawLine} {rest : Bytes} (hl : Unbroken l.text)
    (h : l.terminator.CanPrecede rest) : first (l.bytes ++ rest) = (l, rest) := by
  rw [bytes, List.append_assoc, first_append hl (Terminator.startsWithBreak_append h),
    takeTerminator_append h]

@[simp] theorem ofBytes_nil : ofBytes [] = [] := by
  rw [ofBytes]

theorem ofBytes_of_ne_nil {input : Bytes} (h : input ≠ []) :
    ofBytes input = (first input).1 :: ofBytes (first input).2 := by
  cases input with
  | nil => contradiction
  | cons b bs => rw [ofBytes]

theorem ofBytes_bytes_append {l : RawLine} {rest : Bytes} (hl : Unbroken l.text)
    (h : l.terminator.CanPrecede rest) (hne : l.bytes ≠ []) :
    ofBytes (l.bytes ++ rest) = l :: ofBytes rest := by
  rw [ofBytes_of_ne_nil (by simp [hne]), first_bytes_append hl h]

/-! ## Well-formed lists of lines -/

/-- A line that an input can have: there is no line break in its text, and it takes at least one
byte. -/
structure Proper (l : RawLine) : Prop where
  /-- The line ends where its text ends. -/
  unbroken : Unbroken l.text
  /-- A line that ends with the input is not empty. -/
  text_ne_nil : l.terminator = .eof → l.text ≠ []

/-- One line can come right after another. The line before is not the last, and what is between
them is not CR LF. -/
def Precedes (l m : RawLine) : Prop :=
  l.terminator ≠ .eof ∧ ¬(l.terminator = .cr ∧ m.text = [] ∧ m.terminator = .lf)

/-- Lists of lines that an input can have. -/
structure WellFormed (ls : List RawLine) : Prop where
  /-- Each line is possible. -/
  proper : ∀ l ∈ ls, l.Proper
  /-- Each two neighbours are. -/
  chain : ls.IsChain Precedes

instance (l : RawLine) : Decidable l.Proper :=
  decidable_of_iff (Unbroken l.text ∧ (l.terminator = .eof → l.text ≠ []))
    ⟨fun h ↦ ⟨h.1, h.2⟩, fun h ↦ ⟨h.1, h.2⟩⟩

instance : DecidableRel Precedes := fun l m ↦
  inferInstanceAs
    (Decidable (l.terminator ≠ .eof ∧ ¬(l.terminator = .cr ∧ m.text = [] ∧ m.terminator = .lf)))

instance (ls : List RawLine) : Decidable (WellFormed ls) :=
  decidable_of_iff ((∀ l ∈ ls, l.Proper) ∧ ls.IsChain Precedes)
    ⟨fun h ↦ ⟨h.1, h.2⟩, fun h ↦ ⟨h.1, h.2⟩⟩

theorem Proper.bytes_ne_nil {l : RawLine} (h : l.Proper) : l.bytes ≠ [] := by
  have := h.text_ne_nil
  cases ht : l.terminator <;> simp_all [bytes, Terminator.bytes]

private theorem Proper.head?_bytes_eq_lineFeed_iff {l : RawLine} (h : l.Proper) :
    l.bytes.head? = some lineFeed ↔ l.text = [] ∧ l.terminator = .lf := by
  obtain ⟨text, t⟩ := l
  cases text with
  | nil =>
    have hne : carriageReturn ≠ lineFeed := by decide
    cases t <;> simp [bytes, Terminator.bytes, hne]
  | cons b text =>
    have hb : b ≠ lineFeed := by
      rintro rfl
      exact absurd (h.unbroken lineFeed (by simp)) (by decide)
    simp [bytes, hb]

@[simp] theorem join_nil : join [] = [] := rfl

@[simp] theorem join_cons (l : RawLine) (ls : List RawLine) :
    join (l :: ls) = l.bytes ++ join ls := by
  simp [join]

theorem join_eq_nil_iff {ls : List RawLine} (h : ∀ l ∈ ls, l.Proper) : join ls = [] ↔ ls = [] := by
  cases ls with
  | nil => simp
  | cons l ls => simp [(h l (by simp)).bytes_ne_nil]

private theorem forall_precedes_iff {l : RawLine} {ls : List RawLine} (h : ∀ m ∈ ls, m.Proper) :
    (∀ m ∈ ls.head?, l.Precedes m) ↔ l.terminator.CanPrecede (join ls) := by
  cases ls with
  | nil => simp [Terminator.CanPrecede]
  | cons m ls =>
    have hm := h m (by simp)
    have hhead : (join (m :: ls)).head? = m.bytes.head? := by
      rw [join_cons, List.head?_append_of_ne_nil _ hm.bytes_ne_nil]
    simp only [Terminator.CanPrecede, hhead, ne_eq, hm.head?_bytes_eq_lineFeed_iff,
      join_eq_nil_iff h, List.head?_cons, Option.mem_def, Option.some.injEq, forall_eq', Precedes,
      reduceCtorEq, imp_false, not_and]

theorem wellFormed_cons_iff {l : RawLine} {ls : List RawLine} :
    WellFormed (l :: ls) ↔ l.Proper ∧ l.terminator.CanPrecede (join ls) ∧ WellFormed ls := by
  constructor
  · rintro ⟨hproper, hchain⟩
    rw [List.isChain_cons] at hchain
    have hls : ∀ m ∈ ls, m.Proper := fun m hm ↦ hproper m (List.mem_cons_of_mem l hm)
    exact ⟨hproper l List.mem_cons_self, (forall_precedes_iff hls).mp hchain.1, hls, hchain.2⟩
  · rintro ⟨hl, hcan, hls⟩
    refine ⟨fun m hm ↦ ?_, List.isChain_cons.mpr ⟨(forall_precedes_iff hls.proper).mpr hcan,
      hls.chain⟩⟩
    rcases List.mem_cons.mp hm with rfl | hm
    · exact hl
    · exact hls.proper m hm

theorem wellFormed_nil : WellFormed [] := ⟨by simp, .nil⟩

/-! ## The round trip -/

/-- **Nothing is lost in splitting.** -/
@[simp] theorem join_ofBytes (input : Bytes) : join (ofBytes input) = input := by
  fun_induction ofBytes input with
  | case1 => rfl
  | case2 b bs ih =>
    obtain ⟨l, after, hfirst, hbytes, -, -⟩ := first_eq (b :: bs)
    simp only [hfirst] at ih ⊢
    rw [join_cons, ih, hbytes]

/-- The lines of an input are well-formed. -/
theorem wellFormed_ofBytes (input : Bytes) : WellFormed (ofBytes input) := by
  fun_induction ofBytes input with
  | case1 => exact wellFormed_nil
  | case2 b bs ih =>
    obtain ⟨l, after, hfirst, hbytes, hunbroken, hcan⟩ := first_eq (b :: bs)
    simp only [hfirst] at ih ⊢
    rw [wellFormed_cons_iff, join_ofBytes]
    refine ⟨⟨hunbroken, fun heof hnil ↦ ?_⟩, hcan, ih⟩
    -- an empty line that ends with the input would make the input empty
    simp [bytes, heof, hnil, hcan.1 heof, Terminator.bytes] at hbytes

/-- **Splitting finds the lines that were joined.** -/
theorem ofBytes_join {ls : List RawLine} (h : WellFormed ls) : ofBytes (join ls) = ls := by
  induction ls with
  | nil => simp
  | cons l ls ih =>
    obtain ⟨hl, hcan, hls⟩ := wellFormed_cons_iff.mp h
    rw [join_cons, ofBytes_bytes_append hl.unbroken hcan hl.bytes_ne_nil, ih hls]

theorem ofBytes_eq_of_join_eq {input : Bytes} {ls : List RawLine} (h : WellFormed ls)
    (hjoin : join ls = input) : ofBytes input = ls := by
  rw [← hjoin, ofBytes_join h]

end RawLine

end Linemark
