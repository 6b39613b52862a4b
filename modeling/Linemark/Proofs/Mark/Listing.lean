import Linemark.Proofs.Diagnostic.Output
import Linemark.Proofs.Listing.Rows
import Linemark.Proofs.Mark.Grammar
import Linemark.Proofs.Mark.Searching
import Mathlib.Data.List.Nodup

/-!
# Listings and marks

A listing by characters shows what can be pointed at. Its rows start with the places of the
characters (`row_startsAt_iff`), and a request for a place is met exactly if there is a character at
it (`Reporter.mark_eq_ok_iff`). So a place that is copied from a row can be marked, a place that can
be marked has its row, and the report starts as the row does (`listed_iff_marked`).

The two commands have only the characters in common. A listing passes over all of them and prints
numbers; a mark reads numbers and stops at the first character that it finds. That the rows can be
told apart by the places they start with is a matter of the colons behind the numbers
(`utf8_place_prefix_iff`), whatever the name of the input is.
-/

namespace Linemark

/-! ## The places of rows -/

/-- Output starts with a place of an input, and goes on with what is said about it. -/
def StartsAt (filename : String) (line column : Nat) (output : Bytes) : Prop :=
  utf8 (filename ++ ":" ++ Position.coordinates line column ++ ": ") <+: output

instance (filename : String) (line column : Nat) (output : Bytes) :
    Decidable (StartsAt filename line column output) :=
  inferInstanceAs (Decidable (_ <+: output))

section Places

variable {filename : String} {ls : List RawLine} {c : LineChar} {line column : Nat}

/-- The row of a character is at the place of the character, and at no other. -/
theorem row_startsAt_iff (h : c ∈ charsOf filename ls) :
    StartsAt filename line column c.row ↔ (⟨line, column⟩ : Target).isAt c = true := by
  rw [StartsAt, LineChar.row_eq (one_le_column_of_mem_charsOf h), filename_of_mem_charsOf h,
    utf8_place_prefix_iff, Target.isAt_iff]
  exact and_congr eq_comm eq_comm

private theorem exists_row_startsAt_iff :
    (∃ row ∈ (charsOf filename ls).map LineChar.row, StartsAt filename line column row) ↔
      (⟨line, column⟩ : Target).IsIn ls := by
  rw [Target.isIn_iff filename]
  constructor
  · rintro ⟨row, hrow, hat⟩
    obtain ⟨c, hc, rfl⟩ := List.mem_map.mp hrow
    exact ⟨c, hc, (row_startsAt_iff hc).mp hat⟩
  · rintro ⟨c, hc, hat⟩
    exact ⟨c.row, List.mem_map_of_mem hc, (row_startsAt_iff hc).mpr hat⟩

private theorem countP_row_startsAt (h : (⟨line, column⟩ : Target).IsIn ls) :
    ((charsOf filename ls).map LineChar.row).countP (StartsAt filename line column ·) = 1 := by
  obtain ⟨c, hc⟩ := h.exists_picks filename
  have hsame : ∀ d ∈ charsOf filename ls,
      decide (StartsAt filename line column d.row) = true ↔ (d == c) = true := by
    intro d hd
    rw [decide_eq_true_iff, row_startsAt_iff hd, hc.2 d hd, beq_iff_eq]
  rw [List.countP_map]
  exact (List.countP_congr hsame).trans (List.count_eq_one_of_mem (nodup_charsOf filename ls) hc.1)

end Places

/-! ## Marking one place -/

section Marks

variable {filename : String} {source : Source} {ls : List RawLine} {t : Target}

theorem Target.IsIn.isCoordinate (ht : t.IsIn ls) (h : RawLine.Addressable ls) :
    IsCoordinate t.line ∧ IsCoordinate t.column := by
  obtain ⟨hline, hcolumn, l, hl, hle⟩ := ht
  obtain ⟨hlt, rfl⟩ := List.getElem?_eq_some_iff.mp hl
  have hlength := h.length_le
  have htext := h.length_text_lt _ (List.getElem_mem hlt)
  exact ⟨⟨hline, by omega⟩, hcolumn, by omega⟩

private theorem Reporter.output_mark {p q : Reporter} {r : CharReader} {request : Request}
    {report : Report}
    (hreport : r.reportOn request = .ok report) (hmark : p.mark r request = (.ok (), q))
    (hcolors : p.colors = false) (hlimit : p.sink.limit = none) :
    ∃ written, q.sink.output = p.sink.output ++ written ∧
      utf8 (report.position.text ++ ": ") <+: written := by
  let calls : List Call := [.report report request.presentation.severity
    request.presentation.message, .summarize, .flush]
  have hafter : q = p.after calls := by
    rw [mark_of_reportOn_eq_ok hreport] at hmark
    exact (congrArg Prod.snd hmark).symm
  refine ⟨pieceBytes false (piecesAfter p.tally calls), ?_, ?_⟩
  · rw [hafter, output_after hlimit, hcolors]
  · -- the position is the first piece of the report, and the colon the second
    rw [utf8_append]
    exact ⟨_, List.append_assoc _ _ _⟩

variable {p : Reporter} {path : String} {presentation : Presentation}

/-- A request for one place is met exactly if the place is in the input. -/
theorem Reporter.mark_eq_ok_iff (hls : RawLine.ofBytes source.delivered = ls)
    (h : RawLine.Addressable ls) :
    (∃ q, p.mark (.ofSource filename source) ⟨path, t, none, presentation⟩ = (.ok (), q)) ↔
      t.IsIn ls := by
  constructor
  · rintro ⟨q, hq⟩
    by_contra hin
    rw [mark_of_reportOn_eq_error (CharReader.reportOn_of_first_missing hls h hin)] at hq
    cases hq
  · intro hin
    obtain ⟨c, hc⟩ := hin.exists_picks filename
    exact ⟨_, mark_of_reportOn_eq_ok (CharReader.reportOn_of_char hls h hc rfl)⟩

private theorem Reporter.exists_read_and_mark_iff (hls : RawLine.ofBytes source.delivered = ls)
    (h : RawLine.Addressable ls) {line column : Nat} :
    (∃ q t, Target.read (Position.coordinates line column) = .ok t ∧
        p.mark (.ofSource filename source) ⟨path, t, none, presentation⟩ = (.ok (), q)) ↔
      (⟨line, column⟩ : Target).IsIn ls := by
  constructor
  · rintro ⟨q, t, hread, hmark⟩
    obtain ⟨-, -, rfl⟩ := Target.read_coordinates_eq_ok_iff.mp hread
    exact (mark_eq_ok_iff hls h).mp ⟨q, hmark⟩
  · intro hin
    obtain ⟨q, hmark⟩ := (mark_eq_ok_iff hls h).mpr hin
    obtain ⟨hline, hcolumn⟩ := hin.isCoordinate h
    exact ⟨q, _, Target.read_coordinates_eq_ok_iff.mpr ⟨hline, hcolumn, rfl⟩, hmark⟩

private theorem Reporter.output_mark_of_place {q : Reporter}
    (hls : RawLine.ofBytes source.delivered = ls) (h : RawLine.Addressable ls) {line column : Nat}
    (hmark : p.mark (.ofSource filename source) ⟨path, ⟨line, column⟩, none, presentation⟩
      = (.ok (), q)) (hcolors : p.colors = false) (hlimit : p.sink.limit = none) :
    ∃ written, q.sink.output = p.sink.output ++ written ∧
      StartsAt filename line column written := by
  have hin : (⟨line, column⟩ : Target).IsIn ls := (mark_eq_ok_iff hls h).mp ⟨q, hmark⟩
  obtain ⟨c, hc⟩ := hin.exists_picks filename
  obtain ⟨hline, hcolumn⟩ := Target.isAt_iff.mp hc.isAt
  have hposition : (Report.char c).position.text
      = filename ++ ":" ++ Position.coordinates line column := by
    change c.position.text = _
    rw [Position.text_of_column (one_le_column_of_mem_charsOf hc.1), filename_of_mem_charsOf hc.1,
      hline, hcolumn]
  obtain ⟨written, houtput, hstart⟩ :=
    output_mark (CharReader.reportOn_of_char hls h hc rfl) hmark hcolors hlimit
  rw [hposition] at hstart
  exact ⟨written, houtput, hstart⟩

end Marks

/-- **What is listed can be marked, and what can be marked is listed.** A listing of an input
consists of the rows of its characters. A place has a row in it exactly if a request for the place,
as it is written in the row, is met. The place has only one row then, and the report starts with the
place. And every row is the row of a place that can be marked. -/
theorem listed_iff_marked (filename : String) {source : Source}
    (h : RawLine.Addressable (RawLine.ofBytes source.delivered)) (p : Reporter) (path : String)
    (presentation : Presentation) :
    let r := CharReader.ofSource filename source
    let rows := (charsOf filename (RawLine.ofBytes source.delivered)).map LineChar.row
    let Marked (line column : Nat) (q : Reporter) : Prop :=
      ∃ t, Target.read (Position.coordinates line column) = .ok t ∧
        p.mark r ⟨path, t, none, presentation⟩ = (.ok (), q)
    (∀ s : Sink, s.limit = none →
      ∃ t, s.listChars r = .ok (rows.length, t) ∧ t.output = s.output ++ rows.flatten) ∧
    (∀ line column,
      (∃ row ∈ rows, StartsAt filename line column row) ↔ ∃ q, Marked line column q) ∧
    (∀ line column q, Marked line column q →
      rows.countP (StartsAt filename line column ·) = 1 ∧
        (p.colors = false → p.sink.limit = none →
          ∃ written, q.sink.output = p.sink.output ++ written ∧
            StartsAt filename line column written)) ∧
    ∀ row ∈ rows, ∃ line column q, StartsAt filename line column row ∧ Marked line column q := by
  intro r rows Marked
  have hmarked : ∀ line column, (∃ q, Marked line column q) ↔
      (⟨line, column⟩ : Target).IsIn (RawLine.ofBytes source.delivered) :=
    fun line column ↦ Reporter.exists_read_and_mark_iff rfl h
  refine ⟨?_, ?_, ?_, ?_⟩
  · intro s hs
    obtain ⟨t, hlist, houtput⟩ :=
      Sink.listChars_of_unlimited hs (CharReader.valid_ofSource filename source)
    rw [CharReader.ahead_ofSource h] at hlist houtput
    refine ⟨t, ?_, ?_⟩
    · rw [hlist, List.length_map]
    · rw [houtput, List.flatMap_def]
  · intro line column
    rw [hmarked, exists_row_startsAt_iff]
  · intro line column q hq
    have hin := (hmarked line column).mp ⟨q, hq⟩
    refine ⟨countP_row_startsAt hin, ?_⟩
    intro hcolors hlimit
    obtain ⟨t, hread, hmark⟩ := hq
    obtain ⟨-, -, rfl⟩ := Target.read_coordinates_eq_ok_iff.mp hread
    exact Reporter.output_mark_of_place rfl h hmark hcolors hlimit
  · intro row hrow
    obtain ⟨c, hc, rfl⟩ := List.mem_map.mp hrow
    have hat : StartsAt filename c.position.line c.position.column c.row :=
      (row_startsAt_iff hc).mpr (Target.isAt_iff.mpr ⟨rfl, rfl⟩)
    obtain ⟨q, hq⟩ := (hmarked _ _).mpr (exists_row_startsAt_iff.mp ⟨_, hrow, hat⟩)
    exact ⟨_, _, q, hat, hq⟩

theorem listed_iff_marked_scattered :
    let p := Reporter.ofSink {} .never false
    let r := CharReader.ofSource "input" LineBuffer.scattered
    let Marked (line column : Nat) (q : Reporter) : Prop :=
      ∃ t, Target.read (Position.coordinates line column) = .ok t ∧
        p.mark r ⟨"input", t, none, {}⟩ = (.ok (), q)
    RawLine.Addressable (RawLine.ofBytes LineBuffer.scattered.delivered) ∧
      (∃ t, Sink.listChars {} r = .ok (4, t)) ∧
      (∃ q, Marked 1 2 q ∧ StartsAt "input" 1 2 q.sink.output) ∧ ¬∃ q, Marked 3 1 q := by
  intro p r Marked
  have h : RawLine.Addressable (RawLine.ofBytes LineBuffer.scattered.delivered) := by
    rw [LineBuffer.ofBytes_delivered_scattered]
    decide
  obtain ⟨hlist, hmarked, hreport, -⟩ := listed_iff_marked "input" h p "input" {}
  rw [LineBuffer.ofBytes_delivered_scattered] at hlist hmarked
  obtain ⟨t, ht, -⟩ := hlist {} rfl
  obtain ⟨q, hq⟩ := (hmarked 1 2).mp (by decide)
  obtain ⟨written, hwritten, hstart⟩ := (hreport 1 2 q hq).2 rfl rfl
  refine ⟨h, ⟨t, ht⟩, ⟨q, hq, ?_⟩, fun hq ↦ absurd ((hmarked 3 1).mpr hq) (by decide)⟩
  rw [hwritten]
  exact hstart

end Linemark
