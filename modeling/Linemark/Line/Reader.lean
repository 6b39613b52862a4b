import Linemark.Line.Basic
import Linemark.Line.Buffer

/-!
# Readers

A named input is read by lines or by characters. Both readers take lines off a buffer and count
them; a reader of characters takes a line only when it is asked for the first character of it.
-/

namespace Linemark

/-! ## Line reader

Reads a named input line by line. Lines are numbered from one, empty ones included. -/

/-- A named input being read by lines. -/
structure LineReader where
  /-- The name of the input. -/
  filename : String
  /-- Where lines come from. -/
  input : LineBuffer
  /-- The number of the line that was read last; zero before the first. -/
  line : Nat
  deriving Repr

namespace LineReader

/-- Reads a source under a name. -/
def ofSource (filename : String) (source : Source) : LineReader :=
  { filename, input := .ofSource source, line := 0 }

/-- Reads a line, with the way it ends. -/
def readTerminated (r : LineReader) : Option (Line × Terminator) × LineReader :=
  match r.input.nextLine with
  | (none, input) => (none, { r with input })
  | (some split, input) =>
    let line := Position.following r.line
    (some (⟨⟨r.filename, line, 0⟩, split.text⟩, split.terminator), { r with input, line })

/-- Reads a line. -/
def readLine (r : LineReader) : Option Line × LineReader :=
  let (result, r) := r.readTerminated
  (result.map Prod.fst, r)

/-- How many bytes have been handed out, terminators included. -/
def consumed (r : LineReader) : Nat := r.input.consumed

private theorem work_lt_of_readTerminated {r next : LineReader} {result : Line × Terminator}
    (h : r.readTerminated = (some result, next)) : next.input.work < r.input.work := by
  fun_cases readTerminated r with
  | case1 _ hn => simp [readTerminated, hn] at h
  | case2 split input hn =>
    simp only [readTerminated, hn, Prod.mk.injEq] at h
    rw [← h.2]
    exact LineBuffer.work_lt_of_nextLine hn

/-- Folds over the lines that are left, until they end or a step throws. -/
def foldLines {α ε : Type} (f : α → Line × Terminator → Except ε α) (init : α) (r : LineReader) :
    Except ε (α × LineReader) :=
  match _h : r.readTerminated with
  | (none, next) => .ok (init, next)
  | (some result, next) =>
    match f init result with
    | .ok a => next.foldLines f a
    | .error e => .error e
termination_by r.input.work
decreasing_by exact work_lt_of_readTerminated _h

/-- The lines that are left. -/
def lines (r : LineReader) : List Line × LineReader :=
  let keep (ls : Array Line) (l : Line × Terminator) : Except Empty (Array Line) :=
    .ok (ls.push l.1)
  match r.foldLines keep #[] with
  | .ok (ls, r) => (ls.toList, r)

end LineReader

/-! ## Character reader

Reads a named input character by character, the ends of lines included. `CharReader.peek` looks at
a character and leaves it where it is, `CharReader.skip` passes over it, and `CharReader.read` does
both. A line is taken off the source when its first character is asked for, and not before. -/

/-- A named input being read by characters. -/
structure CharReader where
  /-- The name of the input. -/
  filename : String
  /-- Where lines come from. -/
  input : LineBuffer
  /-- The number of the line that was taken last; zero before the first. -/
  line : Nat
  /-- The place on that line; none before the first line and after the end of each. -/
  current : Option Cursor
  deriving Repr

namespace CharReader

/-- Reads a source under a name. -/
def ofSource (filename : String) (source : Source) : CharReader :=
  { filename, input := .ofSource source, line := 0, current := none }

/-- How many bytes have been handed out. The line being read counts in full. -/
def consumed (r : CharReader) : Nat := r.input.consumed

/-- Takes the next line if the reader is not on one. -/
def settle (r : CharReader) : CharReader :=
  match r.current with
  | some _ => r
  | none =>
    match r.input.nextLine with
    | (none, input) => { r with input }
    | (some split, input) =>
      { r with input, line := Position.following r.line, current := some (.start split.text) }

/-- The character a reader is on, if it is on one. -/
def here (r : CharReader) : Option LineChar := r.current.map fun c ↦ c.char r.filename r.line

/-- The next character; none at the end of the input. -/
def peek (r : CharReader) : Option LineChar × CharReader :=
  let r := r.settle
  (r.here, r)

/-- Passes over the next character. At the end of the input there is none to pass over. -/
def skip (r : CharReader) : CharReader :=
  let r := r.settle
  { r with current := r.current.bind Cursor.next? }

/-- Reads a character: looks at it and passes over it. -/
def read (r : CharReader) : Option LineChar × CharReader :=
  match r.peek with
  | (none, r) => (none, r)
  | (some c, r) => (some c, r.skip)

/-! ### All characters -/

/-- The characters left on the line that a reader is on. -/
def onLine (r : CharReader) : Nat := (r.current.map Cursor.size).getD 0

theorem settle_of_current {r : CharReader} {c : Cursor} (h : r.current = some c) :
    r.settle = r := by
  simp [settle, h]

private theorem work_lt_of_read {r after : CharReader} {c : LineChar}
    (h : r.read = (some c, after)) :
    after.input.work < r.input.work ∨
      after.input.work = r.input.work ∧ after.onLine < r.onLine := by
  cases hc : r.current with
  | some d =>
    right
    simp only [read, peek, here, skip, settle_of_current hc, hc, Option.map_some,
      Option.bind_some, Prod.mk.injEq] at h
    obtain ⟨-, rfl⟩ := h
    refine ⟨rfl, ?_⟩
    cases hd : d.next? with
    | none => simp [onLine, hc, Cursor.size]
    | some e => simpa [onLine, hc] using Cursor.size_lt_of_next? hd
  | none =>
    left
    cases hl : r.input.nextLine with
    | mk line input =>
      cases line with
      | none => simp [read, peek, here, settle, hc, hl] at h
      | some split =>
        simp only [read, peek, here, settle, hc, hl, skip, Option.map_some, Option.bind_some,
          Prod.mk.injEq] at h
        obtain ⟨-, rfl⟩ := h
        exact LineBuffer.work_lt_of_nextLine hl

/-- Folds over the characters that are left, until they end or a step throws. -/
def foldChars {α ε : Type} (f : α → LineChar → Except ε α) (init : α) (r : CharReader) :
    Except ε (α × CharReader) :=
  match _h : r.read with
  | (none, after) => .ok (init, after)
  | (some c, after) =>
    match f init c with
    | .ok a => after.foldChars f a
    | .error e => .error e
termination_by (r.input.work, r.onLine)
decreasing_by
  rcases work_lt_of_read _h with h | ⟨h, h'⟩
  · exact .left _ _ h
  · rw [h]; exact .right _ h'

/-- The characters that are left. -/
def chars (r : CharReader) : List LineChar × CharReader :=
  let keep (cs : Array LineChar) (c : LineChar) : Except Empty (Array LineChar) := .ok (cs.push c)
  match r.foldChars keep #[] with
  | .ok (cs, r) => (cs.toList, r)

end CharReader

end Linemark
