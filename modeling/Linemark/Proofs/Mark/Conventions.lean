import Linemark.Proofs.Line.Calls
import Linemark.Proofs.Mark.Searching

/-!
# Terminators do not show

Two inputs whose lines have the same texts, and differ in how the lines end, read alike by
characters. The inputs are not of one length, are not cut into reads at the same places, and a
reader of the one may have to look ahead for LF where a reader of the other does not; none of it
gets past `CharReader.ahead`, for the characters of lines are made from their texts only
(`charsAfter_congr`).

`CharReader.Alike` relates two readers that have the same characters ahead. Every call keeps the
relation and gets the same answer from both, so no sequence of calls tells such readers apart, and
neither does a request, whose search is a matter of what is ahead.
-/

namespace Linemark

theorem charsAfter_congr {ls ms : List RawLine} (h : ls.map RawLine.text = ms.map RawLine.text)
    (filename : String) (n : Nat) : charsAfter filename n ls = charsAfter filename n ms := by
  induction ls generalizing ms n with
  | nil =>
    obtain rfl : ms = [] := by simpa using h.symm
    rfl
  | cons l ls ih =>
    cases ms with
    | nil => simp at h
    | cons m ms =>
      obtain ⟨htext, hrest⟩ : l.text = m.text ∧ ls.map RawLine.text = ms.map RawLine.text := by
        simpa using h
      rw [charsAfter, charsAfter, htext, ih hrest]

namespace CharReader

/-! ## Calls on what is ahead -/

/-- What a call gets where the given characters are ahead. -/
def Call.answer (cs : List LineChar) : Call → Option LineChar
  | .peek => cs.head?
  | .skip => none
  | .read => cs.head?

/-- The characters that are ahead after a call. -/
def Call.rest (cs : List LineChar) : Call → List LineChar
  | .peek => cs
  | .skip => cs.tail
  | .read => cs.tail

variable {r t : CharReader}

/-- A call is a matter of what is ahead. -/
theorem call_spec (hr : r.input.Valid) (c : Call) :
    (r.call c).2.input.Valid ∧ (r.call c).1 = c.answer r.ahead ∧
      (r.call c).2.ahead = c.rest r.ahead := by
  cases c with
  | peek => exact peek_spec hr
  | skip =>
    obtain ⟨hvalid, hahead⟩ := skip_spec hr
    exact ⟨hvalid, rfl, hahead⟩
  | read => exact read_spec hr

/-! ## Readers that cannot be told apart -/

/-- Two readers have the same characters ahead. -/
structure Alike (r t : CharReader) : Prop where
  /-- The one is in a state that can be reached. -/
  valid : r.input.Valid
  /-- So is the other. -/
  valid' : t.input.Valid
  /-- The same characters are ahead of both. -/
  ahead_eq : r.ahead = t.ahead

/-- One call gets the same answer from both readers, and leaves them alike. -/
theorem Alike.call (h : Alike r t) (c : Call) :
    (r.call c).1 = (t.call c).1 ∧ Alike (r.call c).2 (t.call c).2 := by
  obtain ⟨hvalid, hanswer, hrest⟩ := call_spec h.valid c
  obtain ⟨hvalid', hanswer', hrest'⟩ := call_spec h.valid' c
  refine ⟨?_, hvalid, hvalid', ?_⟩
  · rw [hanswer, hanswer', h.ahead_eq]
  · rw [hrest, hrest', h.ahead_eq]

/-- **A sequence of calls** leaves both readers alike. -/
theorem Alike.after (h : Alike r t) (calls : List Call) :
    Alike (r.after calls) (t.after calls) := by
  induction calls generalizing r t with
  | nil => exact h
  | cons c calls ih => exact ih (h.call c).2

private theorem Alike.reportOn_eq (h : Alike r t) (request : Request) :
    r.reportOn request = t.reportOn request := by
  have hsearch : ∀ first last, r.search first last = t.search first last := by
    intro first last
    rw [search_eq h.valid, search_eq h.valid', h.ahead_eq]
  have hlocate : ∀ first last, r.locate first last = t.locate first last := by
    intro first last
    simp only [locate, hsearch]
  rw [reportOn, reportOn, hlocate]

/-! ## Inputs with the same texts -/

theorem alike_ofSource {source other : Source}
    (h : (RawLine.ofBytes source.delivered).map RawLine.text
      = (RawLine.ofBytes other.delivered).map RawLine.text) (filename : String) :
    Alike (ofSource filename source) (ofSource filename other) where
  valid := valid_ofSource filename source
  valid' := valid_ofSource filename other
  ahead_eq := by rw [ahead_ofSource_eq, ahead_ofSource_eq, charsAfter_congr h]

end CharReader

/-- **Terminators do not show above the lines.** Take two well-formed lists of lines with the same
texts, and two sources that deliver the one and the other, in whatever reads. The characters of
both are those of the texts, no sequence of calls tells the readers apart, and a request has the
same outcome and leaves the same reporter behind. -/
theorem mark_eq_of_map_text_eq {ls ms : List RawLine} (hls : RawLine.WellFormed ls)
    (hms : RawLine.WellFormed ms) (htexts : ls.map RawLine.text = ms.map RawLine.text)
    {source other : Source} (hsource : source.delivered = RawLine.join ls)
    (hother : other.delivered = RawLine.join ms) (filename : String) :
    let r := CharReader.ofSource filename source
    let t := CharReader.ofSource filename other
    (r.chars.1 = charsAfter filename 0 ls ∧ t.chars.1 = r.chars.1) ∧
      (∀ calls c, ((r.after calls).call c).1 = ((t.after calls).call c).1) ∧
      ∀ (p : Reporter) (request : Request), p.mark r request = p.mark t request := by
  intro r t
  have hlines : RawLine.ofBytes source.delivered = ls := by
    rw [hsource, RawLine.ofBytes_join hls]
  have hlines' : RawLine.ofBytes other.delivered = ms := by
    rw [hother, RawLine.ofBytes_join hms]
  have halike : CharReader.Alike r t :=
    CharReader.alike_ofSource (by rw [hlines, hlines', htexts]) filename
  refine ⟨⟨?_, ?_⟩, ?_, ?_⟩
  · rw [CharReader.chars_fst halike.valid, CharReader.ahead_ofSource_eq, hlines]
  · rw [CharReader.chars_fst halike.valid, CharReader.chars_fst halike.valid', halike.ahead_eq]
  · intro calls c
    exact ((halike.after calls).call c).1
  · intro p request
    rw [Reporter.mark, Reporter.mark, halike.reportOn_eq]

theorem mark_eq_of_map_text_eq_mixed :
    let ls : List RawLine := [⟨[0x61], .crlf⟩, ⟨[], .cr⟩, ⟨[], .cr⟩, ⟨[0x62], .eof⟩]
    let ms : List RawLine := [⟨[0x61], .lf⟩, ⟨[], .cr⟩, ⟨[], .crlf⟩, ⟨[0x62], .lf⟩]
    let source : Source := { script := [.failure .interrupted, .data (RawLine.join ls)] }
    let other : Source := { script := [.data (RawLine.join ms)], step := some ⟨1, Nat.one_pos⟩ }
    let p := Reporter.ofSink {} .always true
    let request : Request := ⟨"input", ⟨1, 2⟩, some ⟨4, 1⟩, {}⟩
    RawLine.WellFormed ls ∧ RawLine.WellFormed ms ∧ ls.map RawLine.text = ms.map RawLine.text ∧
      source.delivered = RawLine.join ls ∧ other.delivered = RawLine.join ms ∧
      p.mark (.ofSource "input" source) request = p.mark (.ofSource "input" other) request := by
  intro ls ms source other p request
  have hls : RawLine.WellFormed ls := by decide
  have hms : RawLine.WellFormed ms := by decide
  have hsource : source.delivered = RawLine.join ls := by decide
  have hother : other.delivered = RawLine.join ms := by decide
  exact ⟨hls, hms, rfl, hsource, hother,
    (mark_eq_of_map_text_eq hls hms rfl hsource hother "input").2.2 p request⟩

end Linemark
