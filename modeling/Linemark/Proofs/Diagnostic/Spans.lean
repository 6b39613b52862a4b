import Linemark.Diagnostic.Report
import Linemark.Proofs.Line.Coordinates
import Linemark.Proofs.Line.Lines
import Mathlib.Data.List.Sort
import Mathlib.Data.Prod.Lex

/-!
# Spans and the order of an input

A span is made from two characters by a look at their file names and coordinates, and at nothing
else. Nothing in a character says how far into its input it is; that a span never runs backwards is
owed to the reader, which gives characters in the strict lexicographic order of lines and columns
(`sortedLT_coordinates_charsOf`). Among the characters of one input, to be before another one and to
have the smaller coordinates are therefore the same, and `Span.between` decides the first by looking
at the second. Between inputs of different names no coordinates are compared.
-/

namespace Linemark

/-! ## Coordinates -/

/-- The line and the column of a character, in the order of lines and then of columns. -/
def LineChar.coordinates (c : LineChar) : Nat ×ₗ Nat := toLex (c.position.line, c.position.column)

theorem LineChar.coordinates_lt_iff {c d : LineChar} :
    c.coordinates < d.coordinates ↔ c.position.isBefore d.position = true := by
  rw [coordinates, coordinates, Prod.Lex.toLex_lt_toLex, Position.isBefore_iff]

/-- **The characters of an input have ascending coordinates.** -/
theorem sortedLT_coordinates_charsOf (filename : String) (ls : List RawLine) :
    ((charsOf filename ls).map LineChar.coordinates).SortedLT := by
  rw [List.sortedLT_iff_pairwise, List.pairwise_map]
  exact (pairwise_charsOf filename ls).imp LineChar.coordinates_lt_iff.mpr

theorem coordinates_lt_iff_of_getElem? {filename : String} {ls : List RawLine} {i j : Nat}
    {c d : LineChar} (hc : (charsOf filename ls)[i]? = some c)
    (hd : (charsOf filename ls)[j]? = some d) : c.coordinates < d.coordinates ↔ i < j := by
  obtain ⟨hi, rfl⟩ := List.getElem?_eq_some_iff.mp hc
  obtain ⟨hj, rfl⟩ := List.getElem?_eq_some_iff.mp hd
  have hmono := (sortedLT_coordinates_charsOf filename ls).strictMono_get
  have hlt := hmono.lt_iff_lt (a := ⟨i, by simpa using hi⟩) (b := ⟨j, by simpa using hj⟩)
  simpa using hlt

theorem CharReader.filename_of_mem_chars {filename : String} {source : Source} {c : LineChar}
    (h : c ∈ (ofSource filename source).chars.1) : c.position.filename = filename := by
  rw [chars_fst (valid_ofSource filename source), ahead_ofSource_eq] at h
  exact (position_of_mem_charsAfter h).1

/-! ## Making spans -/

namespace Span

variable {c d : LineChar}

theorem column_le_of_line_eq (s : Span) (h : s.first.position.line = s.last.position.line) :
    s.first.position.column ≤ s.last.position.column := by
  by_contra hlt
  have hbefore := Position.isBefore_iff.mpr (.inr ⟨h.symm, Nat.lt_of_not_le hlt⟩)
  rw [s.ordered] at hbefore
  cases hbefore

theorem ends_of_between {s : Span} (h : between c d = .ok s) : s.first = c ∧ s.last = d := by
  rw [between] at h
  split at h
  · split at h
    · cases h
      exact ⟨rfl, rfl⟩
    · cases h
  · cases h

theorem between_of_filename_ne (h : c.position.filename ≠ d.position.filename) :
    between c d = .error (.fileMismatch c.position.filename d.position.filename) :=
  dif_neg h

theorem between_of_coordinates_lt (h : c.position.filename = d.position.filename)
    (hlt : d.coordinates < c.coordinates) :
    between c d = .error (.reversed (c.position.line, c.position.column)
      (d.position.line, d.position.column)) := by
  have hbefore : d.position.isBefore c.position = true := LineChar.coordinates_lt_iff.mp hlt
  rw [between, dif_pos h, dif_neg (by simp [hbefore])]

theorem exists_between_of_not_lt (h : c.position.filename = d.position.filename)
    (hle : ¬d.coordinates < c.coordinates) :
    ∃ s, between c d = .ok s ∧ s.first = c ∧ s.last = d := by
  have hordered : d.position.isBefore c.position = false := by
    rw [LineChar.coordinates_lt_iff] at hle
    exact Bool.eq_false_iff.mpr hle
  exact ⟨⟨c, d, h, hordered⟩, by rw [between, dif_pos h, dif_pos hordered], rfl, rfl⟩

/-- Characters of an input make a span exactly if they are in the order of the input. -/
theorem exists_between_iff {filename : String} {ls : List RawLine} {i j : Nat}
    (hc : (charsOf filename ls)[i]? = some c) (hd : (charsOf filename ls)[j]? = some d) :
    (∃ s, between c d = .ok s ∧ s.first = c ∧ s.last = d) ↔ i ≤ j := by
  have hfilename : c.position.filename = d.position.filename :=
    filename_eq_of_mem_charsOf (List.mem_of_getElem? hc) (List.mem_of_getElem? hd)
  have horder := coordinates_lt_iff_of_getElem? hd hc
  constructor
  · rintro ⟨s, hs, -⟩
    by_contra hij
    rw [between_of_coordinates_lt hfilename (horder.mpr (Nat.lt_of_not_le hij))] at hs
    cases hs
  · intro hij
    exact exists_between_of_not_lt hfilename fun hlt ↦ Nat.not_lt.mpr hij (horder.mp hlt)

theorem between_eq_reversed_iff {filename : String} {ls : List RawLine} {i j : Nat}
    (hc : (charsOf filename ls)[i]? = some c) (hd : (charsOf filename ls)[j]? = some d) :
    between c d = .error (.reversed (c.position.line, c.position.column)
      (d.position.line, d.position.column)) ↔ j < i := by
  constructor
  · intro hreversed
    by_contra hji
    obtain ⟨s, hs, -⟩ := (exists_between_iff hc hd).mpr (Nat.le_of_not_lt hji)
    rw [hreversed] at hs
    cases hs
  · intro hji
    have hfilename : c.position.filename = d.position.filename :=
      filename_eq_of_mem_charsOf (List.mem_of_getElem? hc) (List.mem_of_getElem? hd)
    exact between_of_coordinates_lt hfilename ((coordinates_lt_iff_of_getElem? hd hc).mpr hji)

end Span

/-! ## Characters of readers -/

/-- **The order of spans is the order of the input.** The characters that a reader gives have
strictly ascending lines and columns. So any two of them make a span, with the two as its ends,
exactly if the first is not given after the last, and otherwise they are refused with their lines
and columns. Characters of inputs with different names are refused with the names, wherever they
are. -/
theorem between_chars (filename : String) (source : Source) :
    let cs := (CharReader.ofSource filename source).chars.1
    (RawLine.Addressable (RawLine.ofBytes source.delivered) →
      (cs.map LineChar.coordinates).SortedLT ∧
      ∀ (i j : Nat) (first last : LineChar), cs[i]? = some first → cs[j]? = some last →
        ((∃ s, Span.between first last = .ok s ∧ s.first = first ∧ s.last = last) ↔ i ≤ j) ∧
        (Span.between first last
            = .error (.reversed (first.position.line, first.position.column)
                (last.position.line, last.position.column)) ↔ j < i)) ∧
    ∀ (otherName : String) (other : Source), filename ≠ otherName →
      ∀ first ∈ cs, ∀ last ∈ (CharReader.ofSource otherName other).chars.1,
        Span.between first last = .error (.fileMismatch filename otherName) := by
  intro cs
  refine ⟨fun h ↦ ?_, fun otherName other hne first hfirst last hlast ↦ ?_⟩
  · have hcs : cs = charsOf filename (RawLine.ofBytes source.delivered) :=
      (CharReader.chars_fst (CharReader.valid_ofSource filename source)).trans
        (CharReader.ahead_ofSource h)
    rw [hcs]
    exact ⟨sortedLT_coordinates_charsOf _ _, fun i j first last hfirst hlast ↦
      ⟨Span.exists_between_iff hfirst hlast, Span.between_eq_reversed_iff hfirst hlast⟩⟩
  · have hname : first.position.filename = filename := CharReader.filename_of_mem_chars hfirst
    have hname' : last.position.filename = otherName := CharReader.filename_of_mem_chars hlast
    rw [Span.between_of_filename_ne (by rwa [hname, hname']), hname, hname']

/-- The first and the last character of an input of two lines, in both orders, and the same two
places in inputs of different names. -/
theorem between_chars_scattered :
    let first : LineChar := ⟨⟨"input", 1, 1⟩, [0x61], .content 0x61⟩
    let last : LineChar := ⟨⟨"input", 2, 2⟩, [0x62], .lineEnd⟩
    let elsewhere : LineChar := { last with position := ⟨"other", 2, 2⟩ }
    let cs := (CharReader.ofSource "input" LineBuffer.scattered).chars.1
    RawLine.Addressable (RawLine.ofBytes LineBuffer.scattered.delivered) ∧
      cs[0]? = some first ∧ cs[3]? = some last ∧
      elsewhere ∈ (CharReader.ofSource "other" LineBuffer.scattered).chars.1 ∧
      (∃ s, Span.between first last = .ok s ∧ s.first = first ∧ s.last = last) ∧
      Span.between last first = .error (.reversed (2, 2) (1, 1)) ∧
      Span.between first elsewhere = .error (.fileMismatch "input" "other") := by
  intro first last elsewhere cs
  have h : RawLine.Addressable (RawLine.ofBytes LineBuffer.scattered.delivered) := by
    rw [LineBuffer.ofBytes_delivered_scattered]
    decide
  have hchars (filename : String) := CharReader.chars_ofSource filename h.length_le
  rw [LineBuffer.ofBytes_delivered_scattered] at hchars
  have hfirst : cs[0]? = some first := congrArg (·[0]?) (hchars "input")
  have hlast : cs[3]? = some last := congrArg (·[3]?) (hchars "input")
  have helsewhere : elsewhere ∈ (CharReader.ofSource "other" LineBuffer.scattered).chars.1 :=
    List.mem_of_getElem? (i := 3) (congrArg (·[3]?) (hchars "other"))
  obtain ⟨hinside, houtside⟩ := between_chars "input" LineBuffer.scattered
  obtain ⟨-, hspan⟩ := hinside h
  exact ⟨h, hfirst, hlast, helsewhere, (hspan 0 3 first last hfirst hlast).1.mpr (by decide),
    (hspan 3 0 last first hlast hfirst).2.mpr (by decide),
    houtside "other" LineBuffer.scattered (by decide) first (List.mem_of_getElem? hfirst) elsewhere
      helsewhere⟩

end Linemark
