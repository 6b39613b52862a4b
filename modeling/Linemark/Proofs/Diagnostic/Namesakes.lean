import Linemark.Proofs.Diagnostic.Marks

/-!
# Inputs of one name

A span is made from two characters that name one input, and nothing keeps two inputs from having
one name. The characters of a span on one line may then carry two texts: that of the first is the
line that is shown, and the column of the last is where the marks end. Whether they reach too far is
settled by just these two (`Span.covered_excerpts_iff`).

Within one input there is one text for each line, so the marks of a span stay within one column of
it. The same holds of spans over several lines from whatever inputs, since each of their rows stands
under the line of its own character.
-/

namespace Linemark

/-! ## Marks that stay with their line -/

/-- Every mark beneath a line stands under it, or under the column after it. -/
def Excerpt.Covered (x : Excerpt) : Prop :=
  ∀ row, x.underline = some row → ∀ (i : Nat) (b : UInt8), row[i]? = some b →
    b = 0x5E ∨ b = 0x7E → i + 1 ≤ x.source.length + 1

section

variable {head : UInt8} {first last : Nat} {source row : Bytes}

private theorem Excerpt.covered_some_iff :
    Excerpt.Covered ⟨source, some row⟩ ↔
      ∀ (i : Nat) (b : UInt8), row[i]? = some b → b = 0x5E ∨ b = 0x7E →
        i + 1 ≤ source.length + 1 := by
  refine ⟨fun h ↦ h row rfl, fun h row' hrow ↦ ?_⟩
  obtain rfl := Option.some.inj hrow
  exact h

/-- Marks are covered if the last of them is. -/
theorem Marks.covered_iff (h : Marks head first last row) (hhead : head = 0x5E ∨ head = 0x7E)
    (hpos : 1 ≤ first) (hle : first ≤ last) :
    Excerpt.Covered ⟨source, some row⟩ ↔ last ≤ source.length + 1 := by
  rw [Excerpt.covered_some_iff]
  constructor
  · intro hcovered
    obtain ⟨b, hb, hmark⟩ : ∃ b, markAt head first last last = some b ∧ (b = 0x5E ∨ b = 0x7E) := by
      rw [markAt, if_neg (Nat.not_lt.mpr hle)]
      split
      · exact ⟨head, rfl, hhead⟩
      · exact ⟨0x7E, if_pos (Nat.le_refl last), .inr rfl⟩
    have hindex := h.getElem?_eq (last - 1)
    rw [Nat.sub_add_cancel (Nat.le_trans hpos hle), hb] at hindex
    have := hcovered (last - 1) b hindex hmark
    omega
  · intro hlast i b hi _
    obtain ⟨hlt, -⟩ := List.getElem?_eq_some_iff.mp hi
    rw [h.length_eq] at hlt
    exact Nat.le_trans hlt hlast

private theorem Excerpt.Covered.append_continuation (h : Excerpt.Covered ⟨source, some row⟩) :
    Excerpt.Covered ⟨source, some (row ++ continuation)⟩ := by
  have hcaret : (0x5E : UInt8) ∉ continuation := by decide
  have htilde : (0x7E : UInt8) ∉ continuation := by decide
  rw [covered_some_iff] at h ⊢
  intro i b hi hb
  rw [List.getElem?_append] at hi
  split at hi
  · exact h i b hi hb
  · have hmem := List.mem_of_getElem? hi
    rcases hb with rfl | rfl
    · exact absurd hmem hcaret
    · exact absurd hmem htilde

end

/-- Marks of a span stay with their lines unless the span is on one line and ends past it. -/
theorem Span.covered_excerpts_iff {s : Span} (hfirst : s.first.IsOn s.first.text)
    (hlast : s.last.IsOn s.last.text) :
    (∀ x ∈ (Report.span s).excerpts, x.Covered) ↔
      (s.first.position.line = s.last.position.line →
        s.last.position.column ≤ s.first.text.length + 1) := by
  have hpos := hfirst.one_le_column
  rw [Report.excerpts]
  by_cases hline : s.first.position.line = s.last.position.line
  · have hordered := s.column_le_of_line_eq hline
    have hrow := marks_caretRow hpos hordered
    rw [isOnOneLine, if_pos (by simpa using hline), List.forall_mem_singleton,
      hrow.covered_iff (.inl rfl) hpos hordered, length_display, forall_prop_of_true hline]
  · have hcovered : Excerpt.Covered ⟨display s.first.text,
        some (caretRow s.first.position.column
          (s.first.text.length - s.first.position.column))⟩ := by
      rw [(marks_caretRow_to_end hpos _).covered_iff (.inl rfl) hpos (Nat.le_max_left _ _),
        length_display]
      exact Nat.max_le.mpr ⟨hfirst.column_le, Nat.le_succ _⟩
    have hlastCovered : Excerpt.Covered ⟨display s.last.text,
        some (tildes s.last.position.column)⟩ := by
      rw [(marks_tildes hlast.one_le_column).covered_iff (.inr rfl) (Nat.le_refl 1)
        hlast.one_le_column, length_display]
      exact hlast.column_le
    rw [isOnOneLine, if_neg (by simpa using hline)]
    refine iff_of_true ?_ fun h ↦ absurd h hline
    simpa using ⟨hcovered.append_continuation, hlastCovered⟩

/-! ## Characters of readers -/

private theorem Line.isOn_of_mem_countedChars {l : Line} {c : LineChar} (h : c ∈ l.countedChars) :
    c.IsOn l.text := by
  have hfollowing (i : Nat) : 1 ≤ Position.following i ∧ Position.following i ≤ i + 1 := by
    have : Position.limit = 4294967295 := rfl
    rw [Position.following]
    omega
  rw [countedChars, List.mem_append, List.mem_mapIdx, List.mem_singleton] at h
  rcases h with ⟨i, hi, rfl⟩ | rfl
  · exact ⟨rfl, (hfollowing i).1, Nat.le_trans (hfollowing i).2 (Nat.le_succ_of_le hi)⟩
  · exact ⟨rfl, (hfollowing _).1, (hfollowing _).2⟩

private theorem CharReader.isOn_text_of_mem_chars {filename : String} {source : Source}
    {c : LineChar} (h : c ∈ (ofSource filename source).chars.1) : c.IsOn c.text := by
  rw [chars_fst (valid_ofSource filename source), ahead_ofSource_eq, charsAfter_eq_flatMap] at h
  obtain ⟨l, -, hc⟩ := List.mem_flatMap.mp h
  have hon := Line.isOn_of_mem_countedChars hc
  rwa [← hon.text_eq] at hon

/-! ## Two inputs of one name -/

/-- An input with a short line. -/
def shortSource : Source := .ofBytes [0x61, 0x0A]

/-- An input with a longer line. -/
def longSource : Source := .ofBytes [0x61, 0x62, 0x63, 0x64, 0x65, 0x66, 0x0A]

/-- The byte on the short line. -/
def shortChar : LineChar := ⟨⟨"f", 1, 1⟩, [0x61], .content 0x61⟩

/-- The last byte on the longer line. -/
def longChar : LineChar := ⟨⟨"f", 1, 6⟩, [0x61, 0x62, 0x63, 0x64, 0x65, 0x66], .content 0x66⟩

private theorem ofBytes_delivered_shortSource :
    RawLine.ofBytes shortSource.delivered = [⟨[0x61], .lf⟩] := by
  change RawLine.ofBytes (RawLine.join [⟨[0x61], .lf⟩]) = _
  exact RawLine.ofBytes_join (by decide)

private theorem ofBytes_delivered_longSource :
    RawLine.ofBytes longSource.delivered
      = [⟨[0x61, 0x62, 0x63, 0x64, 0x65, 0x66], .lf⟩] := by
  change RawLine.ofBytes (RawLine.join [⟨[0x61, 0x62, 0x63, 0x64, 0x65, 0x66], .lf⟩]) = _
  exact RawLine.ofBytes_join (by decide)

private theorem shortChar_mem : shortChar ∈ (CharReader.ofSource "f" shortSource).chars.1 := by
  rw [CharReader.chars_eq_charsOf "f" (by rw [ofBytes_delivered_shortSource]; decide),
    ofBytes_delivered_shortSource]
  exact List.mem_of_getElem? (i := 0) rfl

private theorem longChar_mem : longChar ∈ (CharReader.ofSource "f" longSource).chars.1 := by
  rw [CharReader.chars_eq_charsOf "f" (by rw [ofBytes_delivered_longSource]; decide),
    ofBytes_delivered_longSource]
  exact List.mem_of_getElem? (i := 5) rfl

/-- **Spans between readers.** Two characters that readers give make a span only if the readers have
one name. On one line the marks stay with the line that is shown exactly if the column of the last
character is at most one past it, and on different lines they do so always. If the two readers are
on one input, no span leaves its lines. -/
theorem covered_iff_of_readers (filename otherName : String) (source other : Source) :
    ∀ first ∈ (CharReader.ofSource filename source).chars.1,
    ∀ last ∈ (CharReader.ofSource otherName other).chars.1,
    ∀ s, Span.between first last = .ok s →
      filename = otherName ∧ s.first = first ∧ s.last = last ∧
      ((∀ x ∈ (Report.span s).excerpts, x.Covered) ↔
        (first.position.line = last.position.line →
          last.position.column ≤ first.text.length + 1)) ∧
      (RawLine.Addressable (RawLine.ofBytes source.delivered) →
        other.delivered = source.delivered →
        (first.position.line = last.position.line → first.text = last.text) ∧
          ∀ x ∈ (Report.span s).excerpts, x.Covered) := by
  intro first hfirst last hlast s hs
  obtain ⟨rfl, rfl⟩ := Span.ends_of_between hs
  have hname : filename = otherName := by
    rw [← CharReader.filename_of_mem_chars hfirst, s.same_filename,
      CharReader.filename_of_mem_chars hlast]
  have hon := CharReader.isOn_text_of_mem_chars hlast
  have hcovered := Span.covered_excerpts_iff (CharReader.isOn_text_of_mem_chars hfirst) hon
  refine ⟨hname, rfl, rfl, hcovered, fun h hdelivered ↦ ?_⟩
  have hsame : s.first.position.line = s.last.position.line → s.first.text = s.last.text := by
    rw [CharReader.chars_eq_charsOf filename h] at hfirst
    rw [← hname, CharReader.chars_eq_charsOf filename (hdelivered ▸ h), hdelivered] at hlast
    exact text_eq_of_mem_charsOf hfirst hlast
  refine ⟨hsame, hcovered.mpr fun hline ↦ ?_⟩
  rw [hsame hline]
  exact hon.column_le

/-- On the short line and the longer one the marks reach too far, and on the short line alone they
do not. -/
theorem covered_iff_of_readers_namesakes :
    (∃ s, Span.between shortChar longChar = .ok s ∧
      ((∀ x ∈ (Report.span s).excerpts, x.Covered) ↔ (1 = 1 → 6 ≤ 2))) ∧
    RawLine.Addressable (RawLine.ofBytes shortSource.delivered) ∧
    ∃ s, Span.between shortChar shortChar = .ok s ∧ ∀ x ∈ (Report.span s).excerpts, x.Covered := by
  have h : RawLine.Addressable (RawLine.ofBytes shortSource.delivered) := by
    rw [ofBytes_delivered_shortSource]
    decide
  obtain ⟨s, hs, -⟩ :=
    Span.exists_between_of_not_lt (c := shortChar) (d := longChar) rfl (by decide)
  obtain ⟨t, ht, -⟩ :=
    Span.exists_between_of_not_lt (c := shortChar) (d := shortChar) rfl (by decide)
  obtain ⟨-, -, -, hs', -⟩ := covered_iff_of_readers "f" "f" shortSource longSource shortChar
    shortChar_mem longChar longChar_mem s hs
  obtain ⟨-, -, -, -, ht'⟩ := covered_iff_of_readers "f" "f" shortSource shortSource shortChar
    shortChar_mem shortChar shortChar_mem t ht
  exact ⟨⟨s, hs, hs'⟩, h, t, ht, (ht' h rfl).2⟩

/-- **A name is not an input.** Characters of two inputs make a span if the inputs have one name.
The line that is shown is not the line of the last character, and the marks run past it. -/
theorem exists_uncovered_of_namesakes :
    shortChar ∈ (CharReader.ofSource "f" shortSource).chars.1 ∧
      longChar ∈ (CharReader.ofSource "f" longSource).chars.1 ∧
      shortChar.position.line = longChar.position.line ∧ shortChar.text ≠ longChar.text ∧
      ∃ s, Span.between shortChar longChar = .ok s ∧
        ∃ x ∈ (Report.span s).excerpts, ¬x.Covered := by
  obtain ⟨s, hs, hfirst, hlast⟩ :=
    Span.exists_between_of_not_lt (c := shortChar) (d := longChar) rfl (by decide)
  refine ⟨shortChar_mem, longChar_mem, rfl, by decide, s, hs, ?_⟩
  have hiff := Span.covered_excerpts_iff (s := s)
    (hfirst ▸ CharReader.isOn_text_of_mem_chars shortChar_mem)
    (hlast ▸ CharReader.isOn_text_of_mem_chars longChar_mem)
  rw [hfirst, hlast] at hiff
  by_contra hnone
  push Not at hnone
  exact absurd (hiff.mp hnone rfl) (by decide)

end Linemark
