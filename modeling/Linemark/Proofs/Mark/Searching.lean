import Linemark.Mark.Search
import Linemark.Proofs.Diagnostic.Output
import Linemark.Proofs.Diagnostic.Spans

/-!
# Searching

A request is met by one pass over the characters of the input that stops as soon as everything
asked for was found. The outcome does not depend on where it stops, nor on the order in which the
targets come by: `CharReader.search_eq` says that each target gets the first character at it, as if
it were looked for alone in the whole input. Since coordinates tell the characters of an input
apart, that is the only character there.

What remains is a decision by coordinates (`Reporter.mark_ofSource`): which targets have a character
is known from the number of lines and their lengths, and whether two of them make a span from the
order of the targets.
-/

namespace Linemark

/-! ## Stopping early -/

namespace Sighting

private theorem look_of_isComplete {s : Sighting} {last : Option Target}
    (h : s.isComplete last = true) (first : Target) (c : LineChar) : s.look first last c = s := by
  obtain ⟨found, foundLast⟩ := s
  simp only [isComplete, Bool.and_eq_true, Bool.or_eq_true] at h
  obtain ⟨d, rfl⟩ := Option.isSome_iff_exists.mp h.1
  rcases h.2 with hnone | hsome
  · obtain rfl : last = none := Option.isNone_iff_eq_none.mp hnone
    simp [look]
  · obtain ⟨e, rfl⟩ := Option.isSome_iff_exists.mp hsome
    simp [look]

private theorem foldl_look_of_isComplete {s : Sighting} {last : Option Target}
    (h : s.isComplete last = true) (first : Target) (cs : List LineChar) :
    cs.foldl (fun s c ↦ s.look first last c) s = s := by
  induction cs with
  | nil => rfl
  | cons c cs ih => rw [List.foldl_cons, look_of_isComplete h, ih]

private theorem or_find?_cons (found : Option LineChar) (t : Target) (c : LineChar)
    (cs : List LineChar) : ((found <|> if t.isAt c then some c else none) <|> cs.find? t.isAt)
      = (found <|> (c :: cs).find? t.isAt) := by
  cases found with
  | some d => simp
  | none =>
    by_cases hc : t.isAt c = true
    · simp [hc]
    · simp [hc]

/-- Looking at all of some characters finds the first at each target. -/
theorem foldl_look (s : Sighting) (first : Target) (last : Option Target) (cs : List LineChar) :
    cs.foldl (fun s c ↦ s.look first last c) s
      = ⟨s.first <|> cs.find? first.isAt, s.last <|> last.bind fun t ↦ cs.find? t.isAt⟩ := by
  induction cs generalizing s with
  | nil => simp
  | cons c cs ih =>
    rw [List.foldl_cons, ih, ← or_find?_cons s.first]
    cases last with
    | none => simp [look]
    | some t =>
      rw [Option.bind_some, Option.bind_some, ← or_find?_cons s.last]
      rfl

/-- One step of a search. What was found is thrown when it is everything. -/
def advance (first : Target) (last : Option Target) (s : Sighting) (c : LineChar) :
    Except Sighting Sighting :=
  if (s.look first last c).isComplete last then .error (s.look first last c)
  else .ok (s.look first last c)

/-- What was found, whether the search was stopped or came to the end. -/
def found : Except Sighting Sighting → Sighting
  | .ok s => s
  | .error s => s

private theorem found_foldlM_advance (s : Sighting) (first : Target) (last : Option Target)
    (cs : List LineChar) :
    found (cs.foldlM (advance first last) s) = cs.foldl (fun s c ↦ s.look first last c) s := by
  induction cs generalizing s with
  | nil => rfl
  | cons c cs ih =>
    rw [List.foldlM_cons, List.foldl_cons, advance]
    by_cases hs : (s.look first last c).isComplete last = true
    · -- the search stops here, and the characters behind would not change what was found
      rw [if_pos hs, foldl_look_of_isComplete hs]
      rfl
    · rw [if_neg hs]
      exact ih (s.look first last c)

end Sighting

namespace CharReader

/-- **A search finds the first character at each target**, as if it were looked for alone. -/
theorem search_eq {r : CharReader} (hr : r.input.Valid) (first : Target) (last : Option Target) :
    r.search first last
      = ⟨r.ahead.find? first.isAt, last.bind fun t ↦ r.ahead.find? t.isAt⟩ := by
  have hfound : r.search first last
      = Sighting.found ((r.foldChars (Sighting.advance first last) .start).map Prod.fst) := by
    rw [search]
    split
    next s t h =>
      have hsearch : r.foldChars (Sighting.advance first last) .start = .ok (s, t) := h
      rw [hsearch]
      rfl
    next s h =>
      have hsearch : r.foldChars (Sighting.advance first last) .start = .error s := h
      rw [hsearch]
      rfl
  rw [hfound, foldChars_fst _ _ hr, Sighting.found_foldlM_advance, Sighting.foldl_look]
  simp [Sighting.start]

end CharReader

/-! ## Targets -/

namespace Target

/-- There is a character at the target in an input with the given lines. -/
def IsIn (t : Target) (ls : List RawLine) : Prop :=
  1 ≤ t.line ∧ 1 ≤ t.column ∧ ∃ l ∈ ls[t.line - 1]?, t.column ≤ l.text.length + 1

instance (t : Target) (ls : List RawLine) : Decidable (t.IsIn ls) :=
  inferInstanceAs (Decidable (1 ≤ t.line ∧ 1 ≤ t.column ∧
    ∃ l ∈ ls[t.line - 1]?, t.column ≤ l.text.length + 1))

/-- Of some characters this one is at the target, and no other. -/
def Picks (t : Target) (cs : List LineChar) (c : LineChar) : Prop :=
  c ∈ cs ∧ ∀ d ∈ cs, t.isAt d = true ↔ d = c

variable {t u : Target} {c d : LineChar} {cs : List LineChar} {filename : String}
  {ls : List RawLine}

theorem isAt_iff : t.isAt c = true ↔ c.position.line = t.line ∧ c.position.column = t.column := by
  simp [isAt]

theorem isIn_iff (filename : String) :
    t.IsIn ls ↔ ∃ c ∈ charsOf filename ls, t.isAt c = true := by
  simp only [isAt_iff]
  exact exists_mem_charsOf_iff.symm

theorem Picks.isAt (h : t.Picks cs c) : t.isAt c = true := (h.2 c h.1).mpr rfl

private theorem Picks.find?_eq (h : t.Picks cs c) : cs.find? t.isAt = some c := by
  obtain ⟨d, hd⟩ := Option.isSome_iff_exists.mp (List.find?_isSome.mpr ⟨c, h.1, h.isAt⟩)
  rw [hd, (h.2 d (List.mem_of_find?_eq_some hd)).mp (List.find?_some hd)]

theorem IsIn.exists_picks (h : t.IsIn ls) (filename : String) :
    ∃ c, t.Picks (charsOf filename ls) c := by
  obtain ⟨c, hc, hat⟩ := (isIn_iff filename).mp h
  refine ⟨c, hc, fun d hd ↦ ⟨fun hd' ↦ ?_, fun hdc ↦ hdc ▸ hat⟩⟩
  rw [isAt_iff] at hat hd'
  exact eq_of_mem_charsOf hd hc (hd'.1.trans hat.1.symm) (hd'.2.trans hat.2.symm)

private theorem find?_eq_none (h : ¬t.IsIn ls) : (charsOf filename ls).find? t.isAt = none := by
  rw [List.find?_eq_none]
  exact fun c hc hat ↦ h ((isIn_iff filename).mpr ⟨c, hc, hat⟩)

theorem isBefore_eq (hc : t.isAt c = true) (hd : u.isAt d = true) :
    d.position.isBefore c.position = (u.order t == .lt) := by
  rw [isAt_iff] at hc hd
  rw [Position.isBefore, Position.order, order, hc.1, hc.2, hd.1, hd.2]

theorem Picks.between_eq (hc : t.Picks (charsOf filename ls) c)
    (hd : u.Picks (charsOf filename ls) d) :
    if u.order t = .lt then
      Span.between c d = .error (.reversed (t.line, t.column) (u.line, u.column))
    else ∃ s, Span.between c d = .ok s ∧ s.first = c ∧ s.last = d := by
  have hfilename := filename_eq_of_mem_charsOf hc.1 hd.1
  have hbefore : d.coordinates < c.coordinates ↔ u.order t = .lt := by
    rw [LineChar.coordinates_lt_iff, isBefore_eq hc.isAt hd.isAt, beq_iff_eq]
  split
  next hlt =>
    obtain ⟨hcline, hccolumn⟩ := isAt_iff.mp hc.isAt
    obtain ⟨hdline, hdcolumn⟩ := isAt_iff.mp hd.isAt
    rw [Span.between_of_coordinates_lt hfilename (hbefore.mpr hlt), hcline, hccolumn, hdline,
      hdcolumn]
  next hge => exact Span.exists_between_of_not_lt hfilename (mt hbefore.mp hge)

end Target

/-! ## Requests -/

section Requests

variable {filename : String} {source : Source} {ls : List RawLine} {request : Request}
  {last : Target} {c d : LineChar}

namespace CharReader

theorem search_ofSource (hls : RawLine.ofBytes source.delivered = ls)
    (h : RawLine.Addressable ls) (first : Target) (last : Option Target) :
    (ofSource filename source).search first last
      = ⟨(charsOf filename ls).find? first.isAt,
        last.bind fun t ↦ (charsOf filename ls).find? t.isAt⟩ := by
  subst hls
  rw [search_eq (valid_ofSource filename source), ahead_ofSource h]

theorem reportOn_of_first_missing (hls : RawLine.ofBytes source.delivered = ls)
    (h : RawLine.Addressable ls) (hfirst : ¬request.first.IsIn ls) :
    (ofSource filename source).reportOn request = .error (.notFound request.first) := by
  simp [reportOn, locate, search_ofSource hls h, Target.find?_eq_none hfirst]

theorem reportOn_of_char (hls : RawLine.ofBytes source.delivered = ls)
    (h : RawLine.Addressable ls) (hfirst : request.first.Picks (charsOf filename ls) c)
    (hlast : request.last = none) :
    (ofSource filename source).reportOn request = .ok (.char c) := by
  simp [reportOn, locate, search_ofSource hls h, hlast, hfirst.find?_eq]

theorem reportOn_of_last_missing (hls : RawLine.ofBytes source.delivered = ls)
    (h : RawLine.Addressable ls) (hfirst : request.first.Picks (charsOf filename ls) c)
    (hlast : request.last = some last) (hmissing : ¬last.IsIn ls) :
    (ofSource filename source).reportOn request = .error (.notFound last) := by
  simp [reportOn, locate, search_ofSource hls h, hlast, hfirst.find?_eq,
    Target.find?_eq_none hmissing]

theorem reportOn_of_span (hls : RawLine.ofBytes source.delivered = ls)
    (h : RawLine.Addressable ls) (hfirst : request.first.Picks (charsOf filename ls) c)
    (hlast : request.last = some last) (hpicks : last.Picks (charsOf filename ls) d) :
    (ofSource filename source).reportOn request
      = ((Span.between c d).map Report.span).mapError .span := by
  simp only [reportOn, locate, search_ofSource hls h, hlast, hfirst.find?_eq, Option.bind_some,
    hpicks.find?_eq]
  cases Span.between c d <;> rfl

private theorem reportOn_ne_fileMismatch (hls : RawLine.ofBytes source.delivered = ls)
    (h : RawLine.Addressable ls) (a b : String) :
    (ofSource filename source).reportOn request ≠ .error (.span (.fileMismatch a b)) := by
  by_cases hfirst : request.first.IsIn ls
  · obtain ⟨c, hc⟩ := hfirst.exists_picks filename
    cases hlast : request.last with
    | none => simp [reportOn_of_char hls h hc hlast]
    | some last =>
      by_cases hin : last.IsIn ls
      · -- both ends have the name of the input, so only their order can be wrong
        obtain ⟨d, hd⟩ := hin.exists_picks filename
        have hbetween := hc.between_eq hd
        rw [reportOn_of_span hls h hc hlast hd]
        split at hbetween
        next => simp [hbetween, Except.map, Except.mapError]
        next =>
          obtain ⟨s, hs, -⟩ := hbetween
          simp [hs, Except.map, Except.mapError]
      · simp [reportOn_of_last_missing hls h hc hlast hin]
  · simp [reportOn_of_first_missing hls h hfirst]

end CharReader

namespace Reporter

variable {p : Reporter} {r : CharReader}

theorem mark_of_reportOn_eq_error {error : SearchError} (h : r.reportOn request = .error error) :
    p.mark r request = (.error error, p) := by
  rw [mark, h]

theorem mark_of_reportOn_eq_ok {report : Report} (h : r.reportOn request = .ok report) :
    p.mark r request = (.ok (), (p.report report request.presentation.severity
      request.presentation.message).summarize.flush) := by
  rw [mark, h]

theorem tally_mark (h : (p.mark r request).1 = .ok ()) :
    (p.mark r request).2.tally = (p.tally.count request.presentation.severity).flush := by
  cases hr : r.reportOn request with
  | error error => simp [mark_of_reportOn_eq_error hr] at h
  | ok report => simp [mark_of_reportOn_eq_ok hr]

theorem mark_fst_ne_fileMismatch (hls : RawLine.ofBytes source.delivered = ls)
    (h : RawLine.Addressable ls) (a b : String) :
    (p.mark (.ofSource filename source) request).1 ≠ .error (.span (.fileMismatch a b)) := by
  intro hmark
  cases hr : (CharReader.ofSource filename source).reportOn request with
  | error error =>
    rw [mark_of_reportOn_eq_error hr] at hmark
    obtain rfl : error = .span (.fileMismatch a b) := Except.error.inj hmark
    exact CharReader.reportOn_ne_fileMismatch hls h a b hr
  | ok report => simp [mark_of_reportOn_eq_ok hr] at hmark

private theorem mark_of_last_eq_first (hls : RawLine.ofBytes source.delivered = ls)
    (h : RawLine.Addressable ls) (hlast : request.last = some request.first) :
    p.mark (.ofSource filename source) request
      = p.mark (.ofSource filename source) { request with last := none } := by
  by_cases hfirst : request.first.IsIn ls
  · obtain ⟨c, hc⟩ := hfirst.exists_picks filename
    have hspan := CharReader.reportOn_of_span hls h hc hlast hc
    rw [Span.between_self] at hspan
    have hchar : (CharReader.ofSource filename source).reportOn { request with last := none }
        = .ok (.char c) := CharReader.reportOn_of_char hls h hc rfl
    rw [mark_of_reportOn_eq_ok hspan, mark_of_reportOn_eq_ok hchar, report_span_single]
  · have halone : (CharReader.ofSource filename source).reportOn { request with last := none }
        = .error (.notFound request.first) := CharReader.reportOn_of_first_missing hls h hfirst
    rw [mark_of_reportOn_eq_error (CharReader.reportOn_of_first_missing hls h hfirst),
      mark_of_reportOn_eq_error halone]

/-- **Requests are decided and met by coordinates.** The first target that no character is at is
named. Two targets in the wrong order are refused with their coordinates. In all other cases the
only characters at the targets are reported, and a span of one character is shown as the
character. -/
theorem mark_ofSource (p : Reporter) (filename : String) {source : Source}
    (h : RawLine.Addressable (RawLine.ofBytes source.delivered)) (request : Request) :
    let ls := RawLine.ofBytes source.delivered
    let cs := charsOf filename ls
    let first := request.first
    let outcome := p.mark (.ofSource filename source) request
    let written (report : Report) : Reporter :=
      (p.report report request.presentation.severity request.presentation.message).summarize.flush
    (¬first.IsIn ls → outcome = (.error (.notFound first), p)) ∧
      (first.IsIn ls → request.last = none →
        ∃ c, first.Picks cs c ∧ outcome = (.ok (), written (.char c))) ∧
      (first.IsIn ls → ∀ last, request.last = some last →
        (¬last.IsIn ls → outcome = (.error (.notFound last), p)) ∧
        (last.IsIn ls → last.order first = .lt →
          outcome = (.error (.span (.reversed (first.line, first.column)
            (last.line, last.column))), p)) ∧
        (last.IsIn ls → last.order first ≠ .lt →
          ∃ s : Span, first.Picks cs s.first ∧ last.Picks cs s.last ∧
            outcome = (.ok (), written (.span s)))) ∧
      (∀ a b, outcome.1 ≠ .error (.span (.fileMismatch a b))) ∧
      (outcome.1 = .ok () →
        outcome.2.tally = (p.tally.count request.presentation.severity).flush) ∧
      (request.last = some first →
        outcome = p.mark (.ofSource filename source) { request with last := none }) := by
  intro ls cs first outcome written
  refine ⟨fun hfirst ↦ ?_, fun hfirst hlast ↦ ?_, fun hfirst last hlast ↦ ⟨fun hmissing ↦ ?_,
    fun hin hlt ↦ ?_, fun hin hge ↦ ?_⟩, mark_fst_ne_fileMismatch rfl h, tally_mark,
    mark_of_last_eq_first rfl h⟩
  · exact mark_of_reportOn_eq_error (CharReader.reportOn_of_first_missing rfl h hfirst)
  · obtain ⟨c, hc⟩ := hfirst.exists_picks filename
    exact ⟨c, hc, mark_of_reportOn_eq_ok (CharReader.reportOn_of_char rfl h hc hlast)⟩
  · obtain ⟨c, hc⟩ := hfirst.exists_picks filename
    exact mark_of_reportOn_eq_error (CharReader.reportOn_of_last_missing rfl h hc hlast hmissing)
  · obtain ⟨c, hc⟩ := hfirst.exists_picks filename
    obtain ⟨d, hd⟩ := hin.exists_picks filename
    have hspan := CharReader.reportOn_of_span rfl h hc hlast hd
    have hbetween := hc.between_eq hd
    rw [if_pos hlt] at hbetween
    rw [hbetween] at hspan
    exact mark_of_reportOn_eq_error hspan
  · obtain ⟨c, hc⟩ := hfirst.exists_picks filename
    obtain ⟨d, hd⟩ := hin.exists_picks filename
    have hspan := CharReader.reportOn_of_span rfl h hc hlast hd
    have hbetween := hc.between_eq hd
    rw [if_neg hge] at hbetween
    obtain ⟨s, hs, rfl, rfl⟩ := hbetween
    rw [hs] at hspan
    exact ⟨s, hc, hd, mark_of_reportOn_eq_ok hspan⟩

theorem mark_ofSource_scattered :
    let p := ofSink {} .never false
    let r := CharReader.ofSource "input" LineBuffer.scattered
    RawLine.Addressable (RawLine.ofBytes LineBuffer.scattered.delivered) ∧
      p.mark r ⟨"input", ⟨2, 1⟩, some ⟨1, 2⟩, {}⟩
        = (.error (.span (.reversed (2, 1) (1, 2))), p) ∧
      (p.mark r ⟨"input", ⟨1, 2⟩, some ⟨2, 1⟩, {}⟩).2.tally = ⟨1, 0, 1⟩ := by
  intro p r
  have h : RawLine.Addressable (RawLine.ofBytes LineBuffer.scattered.delivered) := by
    rw [LineBuffer.ofBytes_delivered_scattered]
    decide
  have hin : (⟨2, 1⟩ : Target).IsIn (RawLine.ofBytes LineBuffer.scattered.delivered) ∧
      (⟨1, 2⟩ : Target).IsIn (RawLine.ofBytes LineBuffer.scattered.delivered) := by
    rw [LineBuffer.ofBytes_delivered_scattered]
    decide
  have hreversed := mark_ofSource p "input" h ⟨"input", ⟨2, 1⟩, some ⟨1, 2⟩, {}⟩
  have hspan := mark_ofSource p "input" h ⟨"input", ⟨1, 2⟩, some ⟨2, 1⟩, {}⟩
  obtain ⟨s, -, -, hs⟩ := (hspan.2.2.1 hin.2 _ rfl).2.2 hin.1 (by decide)
  exact ⟨h, (hreversed.2.2.1 hin.1 _ rfl).2.1 hin.2 (by decide),
    hspan.2.2.2.2.1 (congrArg Prod.fst hs)⟩

end Reporter

end Requests

end Linemark
