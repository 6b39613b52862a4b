import Linemark.Line.Reader
import Linemark.Stream.Sink
import Linemark.Text.Bytes

/-!
# Listings

A listing shows an input in rows, by lines or by characters, so that one can see how it was split.
The row of a line has the position, the name of the terminator in brackets, and the bytes of the
line as they are. The row of a character has the position and the character in quotes, escaped
where it is not printable, or says that this is the end of the line.

A listing ends at the first write that is refused.
-/

namespace Linemark

/-! ## Rows -/

/-- A character as a listing shows it. -/
def CharKind.describe : CharKind → Bytes
  | .content b => 0x27 :: escaped b ++ [0x27]
  | .lineEnd => utf8 "end of line"

/-- What stands before the bytes of a line in its row. -/
def Line.rowHead (l : Line) (terminator : Terminator) : Bytes :=
  utf8 (l.position.text ++ ": [" ++ terminator.name ++ "] ")

/-- The row of a character. -/
def LineChar.row (c : LineChar) : Bytes :=
  utf8 (c.position.text ++ ": ") ++ c.kind.describe ++ [lineFeed]

namespace Sink

/-- Writes the row of a line. -/
def writeLine (s : Sink) (l : Line) (terminator : Terminator) : Except Refused Sink := do
  let s ← s.writeAll (l.rowHead terminator)
  let s ← s.writeAll l.text
  s.writeAll [lineFeed]

/-- Writes the row of a character. -/
def writeChar (s : Sink) (c : LineChar) : Except Refused Sink := s.writeAll c.row

/-! ## Whole inputs -/

/-- Writes a row for each line that is left, and gives their number. -/
def listLines (s : Sink) (r : LineReader) : Except Refused (Nat × Sink) := do
  let row (state : Nat × Sink) (l : Line × Terminator) : Except Refused (Nat × Sink) := do
    return (state.1 + 1, ← state.2.writeLine l.1 l.2)
  return (← r.foldLines row (0, s)).1

/-- Writes a row for each character that is left, and gives their number. -/
def listChars (s : Sink) (r : CharReader) : Except Refused (Nat × Sink) := do
  let row (state : Nat × Sink) (c : LineChar) : Except Refused (Nat × Sink) := do
    return (state.1 + 1, ← state.2.writeChar c)
  return (← r.foldChars row (0, s)).1

end Sink

end Linemark
