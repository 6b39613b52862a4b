import Linemark.Proofs.Diagnostic.Decoration
import Linemark.Proofs.Diagnostic.Spans

/-!
# Marks under lines

What stands beneath a line that is shown is said column by column. `Marks head first last row` names
the columns that a row marks, and what is in all the others; it settles the row. A caret with tildes
after it and tildes alone are the same kind of row with different heads (`marks_row`).

Which columns there are is not known to a report. It is known of the characters that a reader gives:
they lie on lines of the input, at columns up to one past the text. With that the columns marked are
those of the characters from one end of a span to the other (`Underlines`), and no row breaks, so
the lines of a report can be counted.
-/

namespace Linemark

/-! ## Rows of marks -/

/-- What there is in a column of a row that marks the columns from `first` to `last`: spaces before
the marks, and tildes behind the first of them. -/
def markAt (head : UInt8) (first last column : Nat) : Option UInt8 :=
  if column < first then some 0x20
  else if column = first then some head
  else if column ≤ last then some 0x7E
  else none

/-- A row marks the columns from `first` to `last`, and no others. -/
structure Marks (head : UInt8) (first last : Nat) (row : Bytes) : Prop where
  /-- In every column there is what there should be. -/
  getElem?_eq : ∀ i, row[i]? = markAt head first last (i + 1)
  /-- The row ends with the marks. -/
  length_eq : row.length = last

private theorem marks_row (head : UInt8) {first last : Nat} (hpos : 1 ≤ first)
    (hle : first ≤ last) :
    Marks head first last
      (List.replicate (first - 1) 0x20 ++ head :: tildes (last - first)) where
  getElem?_eq i := by
    rw [List.getElem?_append, List.length_replicate, markAt]
    by_cases hi : i < first - 1
    · rw [if_pos hi, if_pos (by omega), List.getElem?_replicate, if_pos hi]
    · rw [if_neg hi, if_neg (by omega)]
      obtain ⟨k, rfl⟩ := Nat.exists_eq_add_of_le (Nat.le_of_not_lt hi)
      rw [Nat.add_sub_cancel_left]
      cases k with
      | zero => rw [List.getElem?_cons_zero, if_pos (by omega)]
      | succ k =>
        rw [List.getElem?_cons_succ, if_neg (by omega), tildes, List.getElem?_replicate]
        congr 1
        exact propext (by omega)
  length_eq := by
    simp [tildes]
    omega

theorem marks_caretRow {first last : Nat} (hpos : 1 ≤ first) (hle : first ≤ last) :
    Marks 0x5E first last (caretRow first (last - first)) :=
  marks_row 0x5E hpos hle

example : caretRow 3 2 = utf8 "  ^~~" := by decide

theorem marks_caretRow_to_end {first : Nat} (hpos : 1 ≤ first) (length : Nat) :
    Marks 0x5E first (max first length) (caretRow first (length - first)) := by
  have htildes : length - first = max first length - first := by omega
  rw [htildes]
  exact marks_caretRow hpos (Nat.le_max_left first length)

theorem marks_tildes {n : Nat} (hpos : 1 ≤ n) : Marks 0x7E 1 n (tildes n) := by
  obtain ⟨m, rfl⟩ := Nat.exists_eq_add_of_le' hpos
  exact marks_row 0x7E (Nat.le_refl 1) hpos

/-! ## Rows do not break -/

private theorem unbroken_display {bs : Bytes} (h : Unbroken bs) : Unbroken (display bs) := by
  intro b hb
  rw [display, Array.mem_toList_iff] at hb
  rcases mem_displayFrom hb with hb | hb | rfl
  · simp at hb
  · exact h b hb
  · rfl

theorem Marks.unbroken {head : UInt8} {first last : Nat} {row : Bytes}
    (h : Marks head first last row) (hhead : isBreak head = false) : Unbroken row := by
  intro b hb
  obtain ⟨i, hi⟩ := List.mem_iff_getElem?.mp hb
  rw [h.getElem?_eq, markAt] at hi
  split at hi
  · obtain rfl := Option.some.inj hi
    rfl
  · split at hi
    · obtain rfl := Option.some.inj hi
      exact hhead
    · split at hi
      · obtain rfl := Option.some.inj hi
        rfl
      · cases hi

/-! ## What a span shows -/

/-- A line is shown: in a row of its length, with nothing in it that would end the row. -/
structure Shows (text source : Bytes) : Prop where
  /-- What is shown is the display of the text. -/
  source_eq : source = display text
  /-- A column of the text is the same column of the row. -/
  length_eq : source.length = text.length
  /-- There is neither LF nor CR in it. -/
  unbroken : Unbroken source

private theorem shows_display {text : Bytes} (h : Unbroken text) : Shows text (display text) :=
  ⟨rfl, length_display text, unbroken_display h⟩

/-- The lines at the ends of a span, `firstText` and `lastText`, are shown with the columns of the
span marked beneath them. -/
inductive Underlines (first last : Position) (firstText lastText : Bytes) : List Excerpt → Prop
  /-- The span is on one line, and the marks go from one end to the other. -/
  | oneLine {source row : Bytes} (hline : first.line = last.line) (hsource : Shows firstText source)
    (hrow : Marks 0x5E first.column last.column row) (hle : row.length ≤ source.length + 1) :
    Underlines first last firstText lastText [⟨source, some row⟩]
  /-- The span goes on on another line. The marks go to the end of the first text, and begin again
  with the line of the last character. -/
  | twoLines {source row lastSource lastRow : Bytes} (hline : first.line ≠ last.line)
    (hsource : Shows firstText source)
    (hrow : Marks 0x5E first.column (max first.column firstText.length) row)
    (hle : row.length ≤ source.length + 1) (hlastSource : Shows lastText lastSource)
    (hlastRow : Marks 0x7E 1 last.column lastRow)
    (hlastLe : lastRow.length ≤ lastSource.length + 1) :
    Underlines first last firstText lastText
      [⟨source, some (row ++ utf8 " ...")⟩, ⟨lastSource, some lastRow⟩]

/-- A span between characters of lines marks the columns between them. -/
theorem underlines_excerpts {s : Span} {firstText lastText : Bytes}
    (hfirst : s.first.IsOn firstText) (hlast : s.last.IsOn lastText)
    (hsame : s.first.position.line = s.last.position.line → firstText = lastText)
    (hfirstText : Unbroken firstText) (hlastText : Unbroken lastText) :
    Underlines s.first.position s.last.position firstText lastText (Report.span s).excerpts := by
  obtain ⟨rfl, hpos, hle⟩ := hfirst
  obtain ⟨rfl, hlastPos, hlastLe⟩ := hlast
  rw [Report.excerpts]
  by_cases hline : s.first.position.line = s.last.position.line
  · have hrow := marks_caretRow hpos (s.column_le_of_line_eq hline)
    rw [Span.isOnOneLine, if_pos (by simpa using hline)]
    refine .oneLine hline (shows_display hfirstText) hrow ?_
    rw [hrow.length_eq, length_display, hsame hline]
    exact hlastLe
  · have hrow := marks_caretRow_to_end hpos s.first.text.length
    have hlastRow := marks_tildes hlastPos
    rw [Span.isOnOneLine, if_neg (by simpa using hline)]
    refine .twoLines hline (shows_display hfirstText) hrow ?_ (shows_display hlastText) hlastRow ?_
    · rw [hrow.length_eq, length_display]
      omega
    · rw [hlastRow.length_eq, length_display]
      exact hlastLe

private theorem Underlines.unbroken_rows {first last : Position} {firstText lastText : Bytes}
    {excerpts : List Excerpt} (h : Underlines first last firstText lastText excerpts) :
    (∀ row ∈ excerpts.flatMap Excerpt.rows, Unbroken row) ∧
      (excerpts.flatMap Excerpt.rows).length = if first.line = last.line then 2 else 4 := by
  cases h with
  | oneLine hline hsource hrow =>
    rw [if_pos hline]
    simp [Excerpt.rows, hsource.unbroken, hrow.unbroken (by decide)]
  | twoLines hline hsource hrow hle hlastSource hlastRow =>
    have hcontinuation : Unbroken (utf8 " ...") := by decide
    rw [if_neg hline]
    simp [Excerpt.rows, unbroken_append, hsource.unbroken, hrow.unbroken (by decide),
      hlastSource.unbroken, hlastRow.unbroken (by decide), hcontinuation]

private theorem unbroken_rows_char {c : LineChar} {text : Bytes} (hc : c.IsOn text)
    (h : Unbroken text) :
    (∀ row ∈ (Report.char c).excerpts.flatMap Excerpt.rows, Unbroken row) ∧
      ((Report.char c).excerpts.flatMap Excerpt.rows).length = 2 := by
  have hspan := underlines_excerpts (s := Span.single c) hc hc (fun _ ↦ rfl) h h
  rw [Report.excerpts_span_single] at hspan
  obtain ⟨hrows, hlength⟩ := hspan.unbroken_rows
  exact ⟨hrows, hlength.trans (if_pos rfl)⟩

private theorem unbroken_rows_line {l : Line} (h : Unbroken l.text) :
    ∀ row ∈ (Report.line l).excerpts.flatMap Excerpt.rows, Unbroken row := by
  intro row hrow
  obtain rfl : row = display l.text := by simpa [Report.excerpts, Excerpt.rows] using hrow
  exact unbroken_display h

private theorem unbroken_source {excerpts : List Excerpt}
    (h : ∀ row ∈ excerpts.flatMap Excerpt.rows, Unbroken row) :
    ∀ x ∈ excerpts, Unbroken x.source := by
  intro x hx
  refine h x.source (List.mem_flatMap.mpr ⟨x, hx, ?_⟩)
  rw [Excerpt.rows]
  split
  · exact List.mem_cons_self
  · exact List.mem_cons_self

/-! ## Counting the lines of a report -/

private theorem count_lineFeed_of_unbroken {bs : Bytes} (h : Unbroken bs) :
    bs.count lineFeed = 0 := by
  rw [List.count_eq_zero]
  intro hmem
  exact absurd (h lineFeed hmem) (by decide)

private theorem count_lineFeed_rows {rows : List Bytes} (h : ∀ row ∈ rows, Unbroken row) :
    (rows.flatMap (· ++ [lineFeed])).count lineFeed = rows.length := by
  induction rows with
  | nil => rfl
  | cons row rows ih =>
    have hrow := count_lineFeed_of_unbroken (h row List.mem_cons_self)
    have hrows := ih fun r hr ↦ h r (List.mem_cons_of_mem row hr)
    rw [List.flatMap_cons, List.count_append, List.count_append, hrow, hrows, List.length_cons,
      List.count_singleton_self, Nat.zero_add, Nat.add_comm]

private theorem unbroken_decimal (n : Nat) : Unbroken (utf8 (decimal n)) := by
  intro b hb
  rw [Bool.eq_false_iff]
  intro hbreak
  rcases isBreak_iff.mp hbreak with rfl | rfl
  · exact absurd (mem_utf8_decimal hb).1 (by decide)
  · exact absurd (mem_utf8_decimal hb).1 (by decide)

theorem Report.count_lineFeed_header (r : Report) (severity : Severity) (message : String) :
    (r.header severity message).count lineFeed
      = (utf8 r.position.filename).count lineFeed + (utf8 message).count lineFeed := by
  have hdecimal (n : Nat) := count_lineFeed_of_unbroken (unbroken_decimal n)
  have hcolon : (utf8 ":").count lineFeed = 0 := by decide
  have hgap : (utf8 ": ").count lineFeed = 0 := by decide
  have hposition : (utf8 r.position.text).count lineFeed
      = (utf8 r.position.filename).count lineFeed := by
    rw [Position.text]
    split
    · simp [List.count_append, hdecimal, hcolon]
    · simp [Position.coordinates, List.count_append, hdecimal, hcolon]
  have hseverity : (utf8 severity.name).count lineFeed = 0 := by cases severity <;> decide
  simp [header, List.count_append, hposition, hseverity, hgap]

/-- The lines of a report are its header and its rows, if no row breaks. -/
theorem Report.count_lineFeed_render {r : Report}
    (h : ∀ row ∈ r.excerpts.flatMap Excerpt.rows, Unbroken row) (severity : Severity)
    (message : String) :
    (r.render severity message).count lineFeed = (r.excerpts.flatMap Excerpt.rows).length + 1 +
      ((utf8 r.position.filename).count lineFeed + (utf8 message).count lineFeed) := by
  rw [render, List.flatMap_cons, List.count_append, List.count_append, count_lineFeed_header,
    count_lineFeed_rows h, List.count_singleton_self]
  omega

/-! ## Characters of an input -/

theorem exists_between_eq_ok {filename : String} {ls : List RawLine} {i j : Nat}
    {first last : LineChar} (hle : i ≤ j) (hfirst : (charsOf filename ls)[i]? = some first)
    (hlast : (charsOf filename ls)[j]? = some last) :
    ∃ s, Span.between first last = .ok s ∧ s.first = first ∧ s.last = last :=
  (Span.exists_between_iff hfirst hlast).mpr hle

/-- **Marks cover a span.** Of the characters that a reader gives, any two in the order of the input
make a span, and its report marks the columns from the one to the other, on their lines, and no
other columns. No line that is shown breaks, so a report has one line for the position, one for each
line that is shown, and one for each row of marks. A span of one character is shown as the
character. -/
theorem underlines_of_chars (filename : String) {source : Source}
    (h : RawLine.Addressable (RawLine.ofBytes source.delivered)) :
    let ls := RawLine.ofBytes source.delivered
    let cs := (CharReader.ofSource filename source).chars.1
    let breaks (message : String) : Nat :=
      (utf8 filename).count lineFeed + (utf8 message).count lineFeed
    (∀ (i j : Nat) (first last : LineChar), i ≤ j → cs[i]? = some first → cs[j]? = some last →
      ∃ s l m, Span.between first last = .ok s ∧
        ls[first.position.line - 1]? = some l ∧ ls[last.position.line - 1]? = some m ∧
        Underlines first.position last.position l.text m.text (Report.span s).excerpts ∧
        ∀ severity message, ((Report.span s).render severity message).count lineFeed
          = (if first.position.line = last.position.line then 3 else 5) + breaks message) ∧
    (∀ c ∈ cs, (∀ x ∈ (Report.char c).excerpts, Unbroken x.source) ∧ ∀ severity message,
      ((Report.char c).render severity message).count lineFeed = 3 + breaks message) ∧
    (∀ l ∈ (LineReader.ofSource filename source).lines.1,
      (∀ x ∈ (Report.line l).excerpts, Unbroken x.source) ∧ ∀ severity message,
        ((Report.line l).render severity message).count lineFeed = 2 + breaks message) ∧
    ∀ c severity message, (Report.span (Span.single c)).render severity message
      = (Report.char c).render severity message := by
  intro ls cs breaks
  have hcs : cs = charsOf filename ls :=
    (CharReader.chars_fst (CharReader.valid_ofSource filename source)).trans
      (CharReader.ahead_ofSource h)
  have hunbroken : ∀ l ∈ ls, Unbroken l.text := fun l hl ↦
    ((RawLine.wellFormed_ofBytes source.delivered).proper l hl).unbroken
  rw [hcs]
  refine ⟨fun i j first last hle hfirst hlast ↦ ?_, fun c hc ↦ ?_, fun l hl ↦ ?_,
    fun c severity message ↦ ?_⟩
  · obtain ⟨s, hs, rfl, rfl⟩ := exists_between_eq_ok hle hfirst hlast
    obtain ⟨l, hl, hon⟩ := exists_isOn_of_mem_charsOf (List.mem_of_getElem? hfirst)
    obtain ⟨m, hm, hon'⟩ := exists_isOn_of_mem_charsOf (List.mem_of_getElem? hlast)
    have hsame : s.first.position.line = s.last.position.line → l.text = m.text := by
      intro hline
      rw [hline, hm] at hl
      rw [Option.some.inj hl]
    have hunderlines := underlines_excerpts hon hon' hsame
      (hunbroken l (List.mem_of_getElem? hl)) (hunbroken m (List.mem_of_getElem? hm))
    refine ⟨s, l, m, hs, hl, hm, hunderlines, fun severity message ↦ ?_⟩
    obtain ⟨hrows, hlength⟩ := hunderlines.unbroken_rows
    have hname := filename_of_mem_charsOf (List.mem_of_getElem? hfirst)
    rw [Report.count_lineFeed_render hrows, hlength, Report.position, hname]
    split <;> rfl
  · obtain ⟨l, hl, hon⟩ := exists_isOn_of_mem_charsOf hc
    obtain ⟨hrows, hlength⟩ := unbroken_rows_char hon (hunbroken l (List.mem_of_getElem? hl))
    refine ⟨unbroken_source hrows, fun severity message ↦ ?_⟩
    rw [Report.count_lineFeed_render hrows, hlength, Report.position, filename_of_mem_charsOf hc]
  · rw [LineReader.lines_ofSource filename h.length_le] at hl
    obtain ⟨i, raw, hraw, rfl⟩ := mem_numbered_iff.mp hl
    have hrows := unbroken_rows_line (l := ⟨⟨filename, 1 + i, 0⟩, raw.text⟩)
      (hunbroken raw (List.mem_of_getElem? hraw))
    refine ⟨unbroken_source hrows, fun severity message ↦ ?_⟩
    rw [Report.count_lineFeed_render hrows, Report.position]
    rfl
  · simp [Report.render, Report.header]

/-- The span from the first character of an input to the end of its second line. -/
theorem underlines_of_chars_scattered :
    let first : LineChar := ⟨⟨"input", 1, 1⟩, [0x61], .content 0x61⟩
    let last : LineChar := ⟨⟨"input", 2, 2⟩, [0x62], .lineEnd⟩
    RawLine.Addressable (RawLine.ofBytes LineBuffer.scattered.delivered) ∧
      (CharReader.ofSource "input" LineBuffer.scattered).chars.1[0]? = some first ∧
      (CharReader.ofSource "input" LineBuffer.scattered).chars.1[3]? = some last ∧
      ∃ s, Span.between first last = .ok s ∧
        Underlines ⟨"input", 1, 1⟩ ⟨"input", 2, 2⟩ [0x61] [0x62] (Report.span s).excerpts ∧
        ((Report.span s).render .note "two lines").count lineFeed = 5 := by
  intro first last
  have h : RawLine.Addressable (RawLine.ofBytes LineBuffer.scattered.delivered) := by
    rw [LineBuffer.ofBytes_delivered_scattered]
    decide
  have hchars := CharReader.chars_ofSource "input" h.length_le
  rw [LineBuffer.ofBytes_delivered_scattered] at hchars
  have hfirst : (CharReader.ofSource "input" LineBuffer.scattered).chars.1[0]? = some first := by
    rw [hchars]
    rfl
  have hlast : (CharReader.ofSource "input" LineBuffer.scattered).chars.1[3]? = some last := by
    rw [hchars]
    rfl
  obtain ⟨s, l, m, hs, hl, hm, hunderlines, hcount⟩ :=
    (underlines_of_chars "input" h).1 0 3 first last (by decide) hfirst hlast
  rw [LineBuffer.ofBytes_delivered_scattered] at hl hm
  obtain rfl := Option.some.inj hl
  obtain rfl := Option.some.inj hm
  exact ⟨h, hfirst, hlast, s, hs, hunderlines, hcount .note "two lines"⟩

end Linemark
