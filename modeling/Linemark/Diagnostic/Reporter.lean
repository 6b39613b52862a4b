import Linemark.Diagnostic.Report
import Linemark.Diagnostic.Severity
import Linemark.Stream.Sink

/-!
# Reporter

A reporter writes reports to a sink, with colours or without, and counts the errors and the
warnings among them. Without colours it writes what `Report.render` gives. A summary of the counts
can be written at any time; where there is nothing to count it is silent.

That a report could not be written is nothing that could be reported, so a reporter passes over
refused writes and goes on counting.
-/

namespace Linemark

/-! ## Coloured rows -/

/-- A text between an escape sequence and the reset. -/
def colored (color text : Bytes) : Bytes := color ++ text ++ resetColor

namespace Excerpt

/-- The shown line and its marks, the marks in colour. -/
def coloredRows (e : Excerpt) (color : Bytes) : List Bytes :=
  match e.underline with
  | none => [e.source]
  | some underline => [e.source, colored color underline]

end Excerpt

namespace Report

/-- The header with a bold position and the severity in its colour. -/
def coloredHeader (r : Report) (severity : Severity) (message : String) : Bytes :=
  colored boldText (utf8 r.position.text) ++ utf8 ": " ++
    colored severity.color (utf8 severity.name) ++ utf8 ": " ++ utf8 message

/-- A report in colour, row by row. -/
def coloredRows (r : Report) (severity : Severity) (message : String) : List Bytes :=
  r.coloredHeader severity message ::
    r.excerpts.flatMap fun e ↦ e.coloredRows severity.color

end Report

/-! ## Reporting -/

/-- Writes reports and counts them. -/
structure Reporter where
  /-- Where reports are written. -/
  sink : Sink
  /-- Whether they are written in colour. -/
  colors : Bool
  /-- How many errors were reported. -/
  errors : Nat
  /-- How many warnings were reported. -/
  warnings : Nat
  deriving DecidableEq, Repr

namespace Reporter

/-- A reporter that has reported nothing. -/
def ofSink (sink : Sink) (mode : ColorMode) (isTerminal : Bool) : Reporter :=
  { sink, colors := mode.usesColors isTerminal, errors := 0, warnings := 0 }

/-- An error was reported. -/
def hasErrors (p : Reporter) : Bool := 0 < p.errors

/-- Writes bytes; what is refused is lost. -/
def write (p : Reporter) (bs : Bytes) : Reporter :=
  match p.sink.writeAll bs with
  | .ok sink => { p with sink }
  | .error refused => { p with sink := refused.sink }

/-- Writes rows, each with LF at its end. -/
def writeRows (p : Reporter) (rows : List Bytes) : Reporter :=
  rows.foldl (fun p row ↦ p.write (row ++ [lineFeed])) p

/-- Counts a report of some severity. -/
def count (p : Reporter) : Severity → Reporter
  | .error => { p with errors := p.errors + 1 }
  | .warning => { p with warnings := p.warnings + 1 }
  | .note => p
  | .info => p

/-- Writes a report and counts it. -/
def report (p : Reporter) (r : Report) (severity : Severity) (message : String) : Reporter :=
  let p := p.count severity
  if p.colors then p.writeRows (r.coloredRows severity message)
  else p.write (r.render severity message)

/-- Reports an error. -/
def error (p : Reporter) (r : Report) (message : String) : Reporter := p.report r .error message

/-- Reports a warning. -/
def warning (p : Reporter) (r : Report) (message : String) : Reporter := p.report r .warning message

/-- Reports a note. -/
def note (p : Reporter) (r : Report) (message : String) : Reporter := p.report r .note message

/-- Reports information. -/
def info (p : Reporter) (r : Report) (message : String) : Reporter := p.report r .info message

/-- Flushes the sink. -/
def flush (p : Reporter) : Reporter := { p with sink := p.sink.flush }

/-- Flushes the sink and gives it back. -/
def close (p : Reporter) : Sink := p.flush.sink

/-! ## The summary -/

/-- A number of things. -/
def quantity (n : Nat) (noun : String) : String :=
  decimal n ++ " " ++ noun ++ if n = 1 then "" else "s"

/-- What a summary says after its severity. -/
def summaryText (errors warnings : Nat) : String :=
  let counts :=
    if errors = 0 then quantity warnings "warning"
    else if warnings = 0 then quantity errors "error"
    else quantity errors "error" ++ " and " ++ quantity warnings "warning"
  ": " ++ counts ++ " emitted\n"

/-- Writes the word for a severity, in its colour if there are colours. -/
def writeSeverity (p : Reporter) (severity : Severity) : Reporter :=
  let word := utf8 severity.name
  p.write (if p.colors then colored severity.color word else word)

/-- Writes a summary of the counts, unless there is nothing to summarise. -/
def summarize (p : Reporter) : Reporter :=
  if p.errors = 0 ∧ p.warnings = 0 then p
  else
    let severity := if p.errors = 0 then Severity.warning else .error
    (p.writeSeverity severity).write (utf8 (summaryText p.errors p.warnings))

end Reporter

end Linemark
