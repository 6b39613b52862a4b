import Linemark.Diagnostic.Severity
import Linemark.Line.Basic
import Linemark.Text.Bytes

/-!
# Reports

A report is what a diagnostic points at: a line, a character or a span. It is shown as a header
with the position, the severity and a message, and below it the lines concerned, each with a row
of marks beneath: a caret under the first character and tildes under the others. A line that is
reported as a whole has no marks. Of a span over several lines the first and the last are shown.

Marks stand under byte columns. The end of a line is a column of its own, so a mark reaches one
column past the text at most.
-/

namespace Linemark

/-! ## Spans

A span runs from one character of an input to another, both included. Its ends have one file name
and are in order; a pair of characters for which this fails is refused with the reason. -/

/-- Why two characters do not make a span. -/
inductive SpanError
  /-- The last character is before the first: their lines and columns. -/
  | reversed (first last : Nat × Nat)
  /-- The characters come from inputs of different names. -/
  | fileMismatch (first last : String)
  deriving DecidableEq, Repr

/-- The wording of the error. -/
def SpanError.message : SpanError → String
  | .reversed first last =>
    "span end " ++ Position.coordinates last.1 last.2 ++ " precedes span begin " ++
      Position.coordinates first.1 first.2
  | .fileMismatch first last => "span begins in '" ++ first ++ "' but ends in '" ++ last ++ "'"

/-- A run of characters of an input. -/
structure Span where
  /-- The character the span starts at. -/
  first : LineChar
  /-- The character the span ends at. -/
  last : LineChar
  /-- The ends are in inputs of one name. -/
  same_filename : first.position.filename = last.position.filename
  /-- The ends are in order. -/
  ordered : last.position.isBefore first.position = false
  deriving DecidableEq

namespace Span

/-- The span between two characters. -/
def between (first last : LineChar) : Except SpanError Span :=
  if hf : first.position.filename = last.position.filename then
    if ho : last.position.isBefore first.position = false then .ok ⟨first, last, hf, ho⟩
    else
      .error (.reversed (first.position.line, first.position.column)
        (last.position.line, last.position.column))
  else .error (.fileMismatch first.position.filename last.position.filename)

/-- The span of one character. -/
def single (c : LineChar) : Span :=
  ⟨c, c, rfl, by simp [Position.isBefore, Position.order, Ordering.then]⟩

/-- Both ends are on one line. -/
def isOnOneLine (s : Span) : Bool := s.first.position.line == s.last.position.line

end Span

/-! ## Reports -/

/-- What a diagnostic points at. -/
inductive Report
  | line (l : Line)
  | char (c : LineChar)
  | span (s : Span)
  deriving DecidableEq

/-- A line that is shown, and the marks beneath it. -/
structure Excerpt where
  /-- The line. -/
  source : Bytes
  /-- The marks, if there are any. -/
  underline : Option Bytes
  deriving DecidableEq, Repr

/-! ### Marks -/

/-- A row of tildes. -/
def tildes (n : Nat) : Bytes := List.replicate n 0x7E

/-- A caret under a column, and tildes after it. -/
def caretRow (column n : Nat) : Bytes := List.replicate (column - 1) 0x20 ++ 0x5E :: tildes n

/-- Ends the first row of marks of a span that goes on on another line. -/
def continuation : Bytes := utf8 " ..."

namespace Excerpt

/-- The shown line and its marks, if there are any. -/
def rows (e : Excerpt) : List Bytes :=
  match e.underline with
  | none => [e.source]
  | some underline => [e.source, underline]

end Excerpt

namespace Report

/-- The position in the header. -/
def position : Report → Position
  | .line l => l.position
  | .char c => c.position
  | .span s => s.first.position

/-- The lines that are shown. The tildes of a first line of several end with its text. -/
def excerpts : Report → List Excerpt
  | .line l => [⟨display l.text, none⟩]
  | .char c => [⟨display c.text, some (caretRow c.position.column 0)⟩]
  | .span s =>
    let first := s.first.position.column
    let last := s.last.position.column
    if s.isOnOneLine then [⟨display s.first.text, some (caretRow first (last - first))⟩]
    else
      [⟨display s.first.text, some (caretRow first (s.first.text.length - first) ++ continuation)⟩,
       ⟨display s.last.text, some (tildes last)⟩]

/-- The header of a report. -/
def header (r : Report) (severity : Severity) (message : String) : Bytes :=
  utf8 (r.position.text ++ ": " ++ severity.name ++ ": " ++ message)

/-- A report in full, every row ended by LF. -/
def render (r : Report) (severity : Severity) (message : String) : Bytes :=
  (r.header severity message :: r.excerpts.flatMap Excerpt.rows).flatMap (· ++ [lineFeed])

end Report

end Linemark
