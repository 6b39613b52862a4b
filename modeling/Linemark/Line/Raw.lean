import Linemark.Text.Bytes

/-!
# Lines of a byte string

A line is a stretch of bytes without CR and LF, together with the way it ends: LF, CR, CR LF, or
the end of the input. CR LF is one ending; LF CR is two. An input that ends right after a line
break has no further, empty line.

`RawLine.ofBytes` cuts a whole byte string into its lines and says in one place what the lines
of an input are; `RawLine.join` writes lines back as bytes.
-/

namespace Linemark

/-- How a line ends. -/
inductive Terminator
  | lf
  | cr
  | crlf
  /-- The input ends here, without a line break. -/
  | eof
  deriving DecidableEq, Repr

namespace Terminator

/-- The bytes a line ends in. -/
def bytes : Terminator → Bytes
  | .lf => [lineFeed]
  | .cr => [carriageReturn]
  | .crlf => [carriageReturn, lineFeed]
  | .eof => []

/-- How many bytes a line ends in. -/
def byteLength : Terminator → Nat
  | .lf => 1
  | .cr => 1
  | .crlf => 2
  | .eof => 0

theorem length_bytes (t : Terminator) : t.bytes.length = t.byteLength := by
  cases t <;> rfl

/-- The line ends in a line break. -/
def isBreak : Terminator → Bool
  | .eof => false
  | _ => true

/-- The name a terminator is shown by. -/
def name : Terminator → String
  | .lf => "LF"
  | .cr => "CR"
  | .crlf => "CRLF"
  | .eof => "EOF"

end Terminator

/-- A line of input, its terminator taken off. -/
structure RawLine where
  /-- The bytes before the terminator. -/
  text : Bytes
  /-- How the line ends. -/
  terminator : Terminator
  deriving DecidableEq, Repr

namespace RawLine

/-- A line as it stands in the input. -/
def bytes (l : RawLine) : Bytes := l.text ++ l.terminator.bytes

/-- How many bytes of input a line takes. -/
def byteLength (l : RawLine) : Nat := l.text.length + l.terminator.byteLength

theorem length_bytes (l : RawLine) : l.bytes.length = l.byteLength := by
  simp [bytes, byteLength, Terminator.length_bytes]

/-- The input that lines stand for. -/
def join (ls : List RawLine) : Bytes := ls.flatMap bytes

/-- Reads the terminator that a text without line breaks is followed by, and gives what comes
after it. -/
def takeTerminator : Bytes → Terminator × Bytes
  | [] => (.eof, [])
  | b :: rest =>
    if b = lineFeed then (.lf, rest)
    else match rest with
      | [] => (.cr, [])
      | c :: rest' => if c = lineFeed then (.crlf, rest') else (.cr, rest)

/-- The first line of an input, and what comes after it. -/
def first (input : Bytes) : RawLine × Bytes :=
  let (terminator, rest) := takeTerminator (input.dropWhile fun b ↦ !Linemark.isBreak b)
  (⟨input.takeWhile fun b ↦ !Linemark.isBreak b, terminator⟩, rest)

private theorem length_takeTerminator_le (input : Bytes) :
    (takeTerminator input).2.length ≤ input.length := by
  fun_cases takeTerminator input <;> grind

private theorem length_first_lt {input : Bytes} (h : input ≠ []) :
    (first input).2.length < input.length := by
  cases input with
  | nil => contradiction
  | cons b bs =>
    simp only [first]
    cases hb : Linemark.isBreak b with
    | true =>
      simp only [List.dropWhile_cons, hb]
      simp only [Bool.not_true, Bool.false_eq_true, if_false, takeTerminator]
      grind
    | false =>
      have hle := length_takeTerminator_le (bs.dropWhile fun b ↦ !Linemark.isBreak b)
      have := (List.dropWhile_suffix (l := bs) fun b ↦ !Linemark.isBreak b).length_le
      simp only [List.dropWhile_cons, hb, Bool.not_false, if_true, List.length_cons]
      omega

/-- The lines of an input. -/
def ofBytes : Bytes → List RawLine
  | [] => []
  | b :: bs => (first (b :: bs)).1 :: ofBytes (first (b :: bs)).2
termination_by input => input.length
decreasing_by exact length_first_lt (List.cons_ne_nil _ _)

end RawLine

end Linemark
