import Linemark.Diagnostic.Reporter
import Linemark.Proofs.Stream.Writing

/-!
# What a reporter writes

Coloured and plain output come about in different ways. A plain report is put together first and
written at once; of a coloured one each row is written on its own, with escape sequences between
its parts; and the word of a summary is written before the rest of it. Here both are brought to one
form, a list of `Piece`s that are coloured or not (`Report.pieces`, `summaryPieces`). Whether a
reporter uses colours then decides nothing but how a piece is written, and a call of whatever kind
writes its pieces and moves the tally on (`Reporter.output_call`, `Reporter.tally_call`). A sequence
of calls writes the pieces of each, one behind the other (`Reporter.output_after`).
-/

namespace Linemark

/-! ## Reporting

A reporter passes over refused writes, so writing is handing bytes to the sink, in one part or in
several (`Reporter.write_eq`, `Reporter.write_write`).

What a reporter keeps account of, its `Reporter.tally`, depends on the severities of the reports and
on the flushes only. No write has an influence on it, whether the sink takes the bytes or refuses
them. -/

/-! ### Spans of one character -/

theorem Span.between_self (c : LineChar) : Span.between c c = .ok (Span.single c) := by
  simp [between, single, Position.isBefore, Position.order, Ordering.then]

@[simp] theorem Report.position_span_single (c : LineChar) :
    (Report.span (Span.single c)).position = (Report.char c).position := rfl

@[simp] theorem Report.excerpts_span_single (c : LineChar) :
    (Report.span (Span.single c)).excerpts = (Report.char c).excerpts := by
  simp [excerpts, Span.isOnOneLine, Span.single]

/-! ### Writing -/

namespace Reporter

private theorem write_eq (p : Reporter) (bs : Bytes) :
    p.write bs = { p with sink := p.sink.take bs } := by
  by_cases h : p.sink.Fits bs
  · rw [write, Sink.writeAll_of_fits h]
  · rw [write, Sink.writeAll_of_not_fits h]

@[simp] theorem write_nil (p : Reporter) : p.write [] = p := by
  rw [write_eq, Sink.take_nil]

@[simp] theorem colors_write (p : Reporter) (bs : Bytes) : (p.write bs).colors = p.colors := by
  rw [write_eq]

private theorem write_write (p : Reporter) (bs cs : Bytes) :
    (p.write bs).write cs = p.write (bs ++ cs) := by
  rw [write_eq, write_eq, write_eq, Sink.take_append]

private theorem writeRows_eq (p : Reporter) (rows : List Bytes) :
    p.writeRows rows = p.write (rows.flatMap (· ++ [lineFeed])) := by
  induction rows generalizing p with
  | nil => simp [writeRows]
  | cons row rows ih =>
    change (p.write (row ++ [lineFeed])).writeRows rows = _
    rw [ih, write_write, List.flatMap_cons]

end Reporter

/-! ### The tally -/

/-- What a reporter keeps account of. -/
structure Tally where
  /-- How many errors were reported. -/
  errors : Nat
  /-- How many warnings were reported. -/
  warnings : Nat
  /-- How often the sink was told to flush. -/
  flushes : Nat
  deriving DecidableEq, Repr

/-- The tally after one more report of some severity. -/
def Tally.count (t : Tally) : Severity → Tally
  | .error => { t with errors := t.errors + 1 }
  | .warning => { t with warnings := t.warnings + 1 }
  | .note => t
  | .info => t

/-- The tally after one more flush. -/
def Tally.flush (t : Tally) : Tally := { t with flushes := t.flushes + 1 }

namespace Reporter

/-- The tally of a reporter. -/
def tally (p : Reporter) : Tally := ⟨p.errors, p.warnings, p.sink.flushes⟩

@[simp] theorem tally_write (p : Reporter) (bs : Bytes) : (p.write bs).tally = p.tally := by
  rw [write_eq]
  rfl

@[simp] theorem tally_writeRows (p : Reporter) (rows : List Bytes) :
    (p.writeRows rows).tally = p.tally := by
  rw [writeRows_eq, tally_write]

@[simp] theorem tally_count (p : Reporter) (severity : Severity) :
    (p.count severity).tally = p.tally.count severity := by
  cases severity <;> rfl

@[simp] theorem tally_flush (p : Reporter) : p.flush.tally = p.tally.flush := rfl

@[simp] theorem tally_report (p : Reporter) (r : Report) (severity : Severity) (message : String) :
    (p.report r severity message).tally = p.tally.count severity := by
  rw [report]
  split <;> simp

@[simp] theorem tally_summarize (p : Reporter) : p.summarize.tally = p.tally := by
  rw [summarize]
  split <;> simp [writeSeverity]

theorem report_span_single (p : Reporter) (c : LineChar) (severity : Severity) (message : String) :
    p.report (.span (Span.single c)) severity message = p.report (.char c) severity message := by
  simp [report, Report.coloredRows, Report.coloredHeader, Report.render, Report.header]

end Reporter

/-! ## Pieces -/

/-- A stretch of text that is in one colour, or in none. -/
structure Piece where
  /-- The parameters of the escape sequence that starts the colour. -/
  color : Option String
  /-- The text. -/
  text : Bytes
  deriving DecidableEq, Repr

/-- A piece as it is written, with colours or without. -/
def Piece.bytes (colors : Bool) (p : Piece) : Bytes :=
  match p.color with
  | some parameters =>
    if colors then colored (escapeSequence parameters) p.text else p.text
  | none => p.text

/-- Pieces as they are written one behind the other. -/
def pieceBytes (colors : Bool) (ps : List Piece) : Bytes := ps.flatMap (Piece.bytes colors)

@[simp] theorem pieceBytes_nil (colors : Bool) : pieceBytes colors [] = [] := rfl

@[simp] theorem pieceBytes_cons (colors : Bool) (p : Piece) (ps : List Piece) :
    pieceBytes colors (p :: ps) = p.bytes colors ++ pieceBytes colors ps := rfl

@[simp] theorem pieceBytes_append (colors : Bool) (ps qs : List Piece) :
    pieceBytes colors (ps ++ qs) = pieceBytes colors ps ++ pieceBytes colors qs :=
  List.flatMap_append

/-- The parameters of the colour of a severity. -/
def Severity.parameters : Severity → String
  | .error => "1;31"
  | .warning => "1;33"
  | .note => "1;36"
  | .info => "1;32"

private theorem Severity.color_eq (severity : Severity) :
    severity.color = escapeSequence severity.parameters := by
  cases severity <;> rfl

/-- The word for a severity, in its colour. -/
def Severity.piece (severity : Severity) : Piece := ⟨some severity.parameters, utf8 severity.name⟩

/-! ## Reports -/

/-- The pieces of a shown line and its marks. -/
def Excerpt.pieces (e : Excerpt) (severity : Severity) : List Piece :=
  match e.underline with
  | none => [⟨none, e.source ++ [lineFeed]⟩]
  | some underline =>
    [⟨none, e.source ++ [lineFeed]⟩, ⟨some severity.parameters, underline⟩, ⟨none, [lineFeed]⟩]

/-- The pieces of a report. -/
def Report.pieces (r : Report) (severity : Severity) (message : String) : List Piece :=
  [⟨some "1", utf8 r.position.text⟩, ⟨none, utf8 ": "⟩, severity.piece,
    ⟨none, utf8 ": " ++ utf8 message ++ [lineFeed]⟩] ++ r.excerpts.flatMap (·.pieces severity)

private theorem Excerpt.flatMap_rows (e : Excerpt) (severity : Severity) :
    e.rows.flatMap (· ++ [lineFeed]) = pieceBytes false (e.pieces severity) := by
  rw [rows, pieces]
  cases e.underline <;> simp [Piece.bytes]

private theorem Excerpt.flatMap_coloredRows (e : Excerpt) (severity : Severity) :
    (e.coloredRows severity.color).flatMap (· ++ [lineFeed])
      = pieceBytes true (e.pieces severity) := by
  rw [coloredRows, pieces, severity.color_eq]
  cases e.underline <;> simp [Piece.bytes]

theorem Report.render_eq (r : Report) (severity : Severity) (message : String) :
    r.render severity message = pieceBytes false (r.pieces severity message) := by
  have hrows : (r.excerpts.flatMap Excerpt.rows).flatMap (· ++ [lineFeed])
      = pieceBytes false (r.excerpts.flatMap (·.pieces severity)) := by
    rw [pieceBytes, List.flatMap_assoc, List.flatMap_assoc]
    exact congrArg (List.flatMap · r.excerpts) (funext fun e ↦ e.flatMap_rows severity)
  rw [render, List.flatMap_cons, hrows, pieces, pieceBytes_append]
  simp [header, Piece.bytes, Severity.piece]

private theorem Report.flatMap_coloredRows (r : Report) (severity : Severity) (message : String) :
    (r.coloredRows severity message).flatMap (· ++ [lineFeed])
      = pieceBytes true (r.pieces severity message) := by
  have hrows : (r.excerpts.flatMap fun e ↦ e.coloredRows severity.color).flatMap (· ++ [lineFeed])
      = pieceBytes true (r.excerpts.flatMap (·.pieces severity)) := by
    rw [pieceBytes, List.flatMap_assoc, List.flatMap_assoc]
    exact congrArg (List.flatMap · r.excerpts) (funext fun e ↦ e.flatMap_coloredRows severity)
  rw [coloredRows, List.flatMap_cons, hrows, pieces, pieceBytes_append]
  simp [coloredHeader, severity.color_eq, Piece.bytes, Severity.piece, boldText]

/-! ## Summaries -/

/-- The severity that a summary of counts has. -/
def summarySeverity (errors : Nat) : Severity := if errors = 0 then .warning else .error

/-- The pieces of a summary of counts, none if there is nothing to summarise. -/
def summaryPieces (errors warnings : Nat) : List Piece :=
  if errors = 0 ∧ warnings = 0 then []
  else [(summarySeverity errors).piece, ⟨none, utf8 (Reporter.summaryText errors warnings)⟩]

/-- Nothing was reported or flushed. -/
def Tally.start : Tally := ⟨0, 0, 0⟩

/-! ## Writing pieces -/

namespace Reporter

@[simp] theorem colors_count (p : Reporter) (severity : Severity) :
    (p.count severity).colors = p.colors := by
  cases severity <;> rfl

@[simp] theorem sink_count (p : Reporter) (severity : Severity) :
    (p.count severity).sink = p.sink := by
  cases severity <;> rfl

/-- A report is counted, and its pieces are written. -/
theorem report_eq (p : Reporter) (r : Report) (severity : Severity) (message : String) :
    p.report r severity message
      = (p.count severity).write (pieceBytes p.colors (r.pieces severity message)) := by
  rw [report]
  cases hcolors : p.colors with
  | true => simp [hcolors, writeRows_eq, Report.flatMap_coloredRows]
  | false => simp [hcolors, Report.render_eq]

private theorem writeSeverity_eq (p : Reporter) (severity : Severity) :
    p.writeSeverity severity = p.write (severity.piece.bytes p.colors) := by
  rw [writeSeverity, severity.color_eq]
  rfl

/-- A summary writes its pieces. -/
theorem summarize_eq (p : Reporter) :
    p.summarize = p.write (pieceBytes p.colors (summaryPieces p.errors p.warnings)) := by
  rw [summarize, summaryPieces]
  split
  next => simp
  next =>
    change (p.writeSeverity (summarySeverity p.errors)).write _ = _
    rw [writeSeverity_eq, write_write]
    simp [Piece.bytes]

/-! ## Calls -/

/-- What a reporter can be asked to do. -/
inductive Call
  /-- To report something with some severity. -/
  | report (r : Report) (severity : Severity) (message : String)
  /-- To report something, by the method that is named after the severity. -/
  | named (severity : Severity) (r : Report) (message : String)
  /-- To write a summary. -/
  | summarize
  | flush

/-- The reporter after a call. -/
def call (p : Reporter) : Call → Reporter
  | .report r severity message => p.report r severity message
  | .named .error r message => p.error r message
  | .named .warning r message => p.warning r message
  | .named .note r message => p.note r message
  | .named .info r message => p.info r message
  | .summarize => p.summarize
  | .flush => p.flush

/-- The reporter after a sequence of calls. -/
def after (p : Reporter) (calls : List Call) : Reporter := calls.foldl call p

namespace Call

/-- The severity of the report that a call makes, if it makes one. -/
def severity? : Call → Option Severity
  | .report _ severity _ => some severity
  | .named severity _ _ => some severity
  | .summarize => none
  | .flush => none

/-- The tally after a call. -/
def tally (t : Tally) : Call → Tally
  | .report _ severity _ => t.count severity
  | .named severity _ _ => t.count severity
  | .summarize => t
  | .flush => t.flush

private theorem counts_tally (c : Call) (t : Tally) :
    (c.tally t).errors = t.errors + (if c.severity? = some .error then 1 else 0) ∧
      (c.tally t).warnings = t.warnings + (if c.severity? = some .warning then 1 else 0) := by
  rcases c with ⟨r, severity, message⟩ | ⟨severity, r, message⟩ | _ | _
  · cases severity <;> exact ⟨rfl, rfl⟩
  · cases severity <;> exact ⟨rfl, rfl⟩
  · exact ⟨rfl, rfl⟩
  · exact ⟨rfl, rfl⟩

/-- The pieces that a call writes. -/
def pieces (t : Tally) : Call → List Piece
  | .report r severity message => r.pieces severity message
  | .named severity r message => r.pieces severity message
  | .summarize => summaryPieces t.errors t.warnings
  | .flush => []

end Call

private theorem call_named (p : Reporter) (severity : Severity) (r : Report) (message : String) :
    p.call (.named severity r message) = p.report r severity message := by
  cases severity <;> rfl

@[simp] theorem tally_call (p : Reporter) (c : Call) : (p.call c).tally = c.tally p.tally := by
  cases c with
  | report r severity message => exact p.tally_report r severity message
  | named severity r message =>
    rw [call_named]
    exact p.tally_report r severity message
  | summarize => exact p.tally_summarize
  | flush => exact p.tally_flush

@[simp] theorem colors_call (p : Reporter) (c : Call) : (p.call c).colors = p.colors := by
  cases c with
  | report r severity message => simp [call, report_eq]
  | named severity r message => simp [call_named, report_eq]
  | summarize => simp [call, summarize_eq]
  | flush => rfl

/-- What a call writes: its pieces, as far as the sink takes them. -/
theorem output_call (p : Reporter) (c : Call) :
    (p.call c).sink.output
      = (p.sink.take (pieceBytes p.colors (c.pieces p.tally))).output := by
  cases c with
  | report r severity message => simp [call, report_eq, write_eq, Call.pieces]
  | named severity r message => simp [call_named, report_eq, write_eq, Call.pieces]
  | summarize =>
    rw [call, summarize_eq, write_eq]
    rfl
  | flush => simp [call, flush, Sink.output, Sink.flush, Call.pieces]

theorem limit_call (p : Reporter) (c : Call) :
    (p.call c).sink.limit = p.sink.limit ∧ (p.call c).sink.refusal = p.sink.refusal := by
  cases c with
  | report r severity message => simp [call, report_eq, write_eq]
  | named severity r message => simp [call_named, report_eq, write_eq]
  | summarize => simp [call, summarize_eq, write_eq]
  | flush => exact ⟨rfl, rfl⟩

/-! ## Sequences of calls -/

/-- The pieces that a sequence of calls writes. -/
def piecesAfter (t : Tally) : List Call → List Piece
  | [] => []
  | c :: calls => c.pieces t ++ piecesAfter (c.tally t) calls

/-- What a call writes without colours: a report as it is rendered, or the line of a summary. -/
def Call.text (t : Tally) : Call → Bytes
  | .report r severity message => r.render severity message
  | .named severity r message => r.render severity message
  | .summarize =>
    if t.errors = 0 ∧ t.warnings = 0 then []
    else utf8 ((summarySeverity t.errors).name ++ summaryText t.errors t.warnings)
  | .flush => []

/-- What a sequence of calls writes without colours. -/
def transcript (t : Tally) : List Call → Bytes
  | [] => []
  | c :: calls => c.text t ++ transcript (c.tally t) calls

private theorem pieceBytes_pieces (t : Tally) (c : Call) :
    pieceBytes false (c.pieces t) = c.text t := by
  cases c with
  | report r severity message => exact (r.render_eq severity message).symm
  | named severity r message => exact (r.render_eq severity message).symm
  | summarize =>
    rw [Call.pieces, Call.text, summaryPieces]
    split
    · rfl
    · simp [Piece.bytes, Severity.piece]
  | flush => rfl

theorem pieceBytes_piecesAfter (t : Tally) (calls : List Call) :
    pieceBytes false (piecesAfter t calls) = transcript t calls := by
  induction calls generalizing t with
  | nil => rfl
  | cons c calls ih => rw [piecesAfter, transcript, pieceBytes_append, pieceBytes_pieces, ih]

private theorem piecesAfter_congr {t u : Tally} (herrors : t.errors = u.errors)
    (hwarnings : t.warnings = u.warnings) (calls : List Call) :
    piecesAfter t calls = piecesAfter u calls := by
  induction calls generalizing t u with
  | nil => rfl
  | cons c calls ih =>
    have hpieces : c.pieces t = c.pieces u := by
      cases c <;> simp [Call.pieces, herrors, hwarnings]
    obtain ⟨ht, ht'⟩ := c.counts_tally t
    obtain ⟨hu, hu'⟩ := c.counts_tally u
    rw [piecesAfter, piecesAfter, hpieces, ih]
    · rw [ht, hu, herrors]
    · rw [ht', hu', hwarnings]

@[simp] theorem after_cons (p : Reporter) (c : Call) (calls : List Call) :
    p.after (c :: calls) = (p.call c).after calls := rfl

theorem colors_after (p : Reporter) (calls : List Call) : (p.after calls).colors = p.colors := by
  induction calls generalizing p with
  | nil => rfl
  | cons c calls ih => rw [after_cons, ih, colors_call]

theorem limit_after (p : Reporter) (calls : List Call) :
    (p.after calls).sink.limit = p.sink.limit ∧
      (p.after calls).sink.refusal = p.sink.refusal := by
  induction calls generalizing p with
  | nil => exact ⟨rfl, rfl⟩
  | cons c calls ih =>
    obtain ⟨hlimit, hrefusal⟩ := ih (p.call c)
    exact ⟨hlimit.trans (p.limit_call c).1, hrefusal.trans (p.limit_call c).2⟩

/-- **What a sequence of calls writes** to a sink that takes everything: the pieces of the calls. -/
theorem output_after {p : Reporter} (h : p.sink.limit = none) (calls : List Call) :
    (p.after calls).sink.output
      = p.sink.output ++ pieceBytes p.colors (piecesAfter p.tally calls) := by
  induction calls generalizing p with
  | nil => simp [after, piecesAfter]
  | cons c calls ih =>
    have hlimit : (p.call c).sink.limit = none := (p.limit_call c).1.trans h
    rw [after_cons, ih hlimit, output_call, Sink.output_take_of_unlimited h, colors_call,
      tally_call, piecesAfter, pieceBytes_append, List.append_assoc]

theorem output_after_ofSink {s : Sink} (h : s.limit = none) (mode : ColorMode) (isTerminal : Bool)
    (calls : List Call) :
    ((ofSink s mode isTerminal).after calls).sink.output
      = s.output ++ pieceBytes (mode.usesColors isTerminal) (piecesAfter .start calls) := by
  have hpieces : piecesAfter (ofSink s mode isTerminal).tally calls = piecesAfter .start calls := by
    apply piecesAfter_congr
    · rfl
    · rfl
  rw [← hpieces]
  exact output_after h calls

theorem counts_after (p : Reporter) (calls : List Call) :
    (p.after calls).errors = p.errors + calls.countP (fun c ↦ c.severity? = some .error) ∧
      (p.after calls).warnings
        = p.warnings + calls.countP (fun c ↦ c.severity? = some .warning) := by
  induction calls generalizing p with
  | nil => exact ⟨rfl, rfl⟩
  | cons c calls ih =>
    obtain ⟨hstep, hstep'⟩ := c.counts_tally p.tally
    rw [← tally_call] at hstep hstep'
    obtain ⟨herrors, hwarnings⟩ := ih (p.call c)
    simp only [tally] at hstep hstep'
    rw [after_cons, herrors, hwarnings, hstep, hstep', List.countP_cons, List.countP_cons]
    simp only [decide_eq_true_eq]
    omega

end Reporter

end Linemark
