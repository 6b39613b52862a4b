import Linemark.Text.Bytes

/-!
# Lines and characters

A line of a named input, and the characters on it. The characters of a line are its bytes, at
columns from one, and after them one character more for its end. That last character reads as LF
whatever the line ended in, also where the input just stopped; so a consumer never sees which
terminators an input uses.

Each character carries the text of its whole line, which is what a diagnostic shows.
-/

namespace Linemark

/-! ## Positions

A position names an input and a place in it. Lines and columns count from one; column zero stands
for a line as a whole. Counting stops at `Position.limit`, so that a line number is never wrong by
starting over. -/

/-- A place in a named input. -/
structure Position where
  /-- The name of the input. -/
  filename : String
  /-- The line, from one. -/
  line : Nat
  /-- The column, from one; zero for the line as a whole. -/
  column : Nat
  deriving DecidableEq, Repr

namespace Position

/-- The largest line and column that are counted. -/
def limit : Nat := 4294967295

/-- The number after `n`, as far as is counted. -/
def following (n : Nat) : Nat := min (n + 1) limit

theorem following_of_lt {n : Nat} (h : n < limit) : following n = n + 1 := by
  simp only [following]; omega

/-- A line and a column as they are shown. -/
def coordinates (line column : Nat) : String := decimal line ++ ":" ++ decimal column

/-- A position as it is shown: `name:line`, and `:column` if there is one. -/
def text (p : Position) : String :=
  if p.column = 0 then p.filename ++ ":" ++ decimal p.line
  else p.filename ++ ":" ++ coordinates p.line p.column

/-- The order of places in one input: by line, then by column. -/
def order (p q : Position) : Ordering := (compare p.line q.line).then (compare p.column q.column)

/-- One position is before another, whatever input they are in. -/
def isBefore (p q : Position) : Bool := p.order q == .lt

theorem isBefore_iff {p q : Position} :
    p.isBefore q = true ↔ p.line < q.line ∨ p.line = q.line ∧ p.column < q.column := by
  simp [isBefore, order, Ordering.then_eq_lt, Nat.compare_eq_lt]

end Position

/-! ## Lines and characters -/

/-- A line of a named input. -/
structure Line where
  /-- The line's position, with no column. -/
  position : Position
  /-- The bytes of the line, its terminator taken off. -/
  text : Bytes
  deriving DecidableEq, Repr

/-- What a character is. -/
inductive CharKind
  /-- A byte of the line. -/
  | content (byte : UInt8)
  /-- The end of the line. -/
  | lineEnd
  deriving DecidableEq, Repr

/-- A character of a named input. -/
structure LineChar where
  /-- Where the character is. -/
  position : Position
  /-- The bytes of the line it is on. -/
  text : Bytes
  /-- What it is. -/
  kind : CharKind
  deriving DecidableEq, Repr

namespace LineChar

/-- The byte a character reads as. -/
def byte (c : LineChar) : UInt8 :=
  match c.kind with
  | .content b => b
  | .lineEnd => lineFeed

/-- The character is the end of its line. -/
def isLineEnd (c : LineChar) : Bool := c.kind == .lineEnd

end LineChar

/-! ### Walking along a line -/

/-- A place on a line: how many bytes are behind it, and which are ahead. The end of the line is
the place with none ahead. -/
structure Cursor where
  /-- The bytes of the line. -/
  text : Bytes
  /-- How many of them are behind. -/
  offset : Nat
  /-- The bytes from here to the end of the line. -/
  ahead : Bytes
  deriving DecidableEq, Repr

namespace Cursor

/-- The start of a line. -/
def start (text : Bytes) : Cursor := { text, offset := 0, ahead := text }

/-- What is at a place. -/
def kind (c : Cursor) : CharKind :=
  match c.ahead with
  | [] => .lineEnd
  | b :: _ => .content b

/-- The character at a place on the line with the given number. -/
def char (c : Cursor) (filename : String) (line : Nat) : LineChar :=
  { position := { filename, line, column := Position.following c.offset }, text := c.text,
    kind := c.kind }

/-- The next place on the line. Nothing is after its end. -/
def next? (c : Cursor) : Option Cursor :=
  match c.ahead with
  | [] => none
  | _ :: rest => some { c with offset := c.offset + 1, ahead := rest }

/-- The places from here to the end of the line, this one included. -/
def size (c : Cursor) : Nat := c.ahead.length + 1

theorem size_lt_of_next? {c d : Cursor} (h : c.next? = some d) : d.size < c.size := by
  obtain ⟨text, offset, ahead⟩ := c
  cases ahead with
  | nil => simp [next?] at h
  | cons b rest =>
    simp only [next?, Option.some.injEq] at h
    simp [← h, size]

end Cursor

end Linemark
