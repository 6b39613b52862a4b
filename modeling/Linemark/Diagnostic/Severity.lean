import Linemark.Text.Bytes

/-!
# Severities and colours

How grave a diagnostic is, and the colour that this is shown in.
-/

namespace Linemark

/-! ## Severities

How grave a diagnostic is. Errors and warnings are counted by whoever prints them, notes and
informational messages are not. -/

/-- How grave a diagnostic is. -/
inductive Severity
  | error
  | warning
  | note
  | info
  deriving DecidableEq, Repr

namespace Severity

/-- The word for a severity, in output and on the command line. -/
def name : Severity → String
  | .error => "error"
  | .warning => "warning"
  | .note => "note"
  | .info => "info"

/-- Every severity. -/
def all : List Severity := [.error, .warning, .note, .info]

/-- The severity that a word stands for. -/
def ofName? (word : String) : Option Severity := all.find? fun s ↦ s.name == word

theorem ofName?_eq_some_iff {word : String} {s : Severity} :
    ofName? word = some s ↔ s.name = word := by
  constructor
  · intro h
    simpa using List.find?_some h
  · rintro rfl
    cases s <;> decide

end Severity

/-- A word that stands for no severity. -/
structure UnknownSeverity where
  word : String
  deriving DecidableEq, Repr

/-- The wording of the error. -/
def UnknownSeverity.message (e : UnknownSeverity) : String :=
  "unknown severity '" ++ e.word ++ "' (expected error, warning, note or info)"

/-- Reads a severity. -/
def Severity.read (word : String) : Except UnknownSeverity Severity :=
  match ofName? word with
  | some s => .ok s
  | none => .error ⟨word⟩

/-! ## Colours

Whether output is coloured, and the escape sequences that colour it. Every sequence is ESC, `[`,
numbers separated by semicolons, and `m`. -/

/-- When to use colours. -/
inductive ColorMode
  /-- If the output is a terminal. -/
  | auto
  | always
  | never
  deriving DecidableEq, Repr

namespace ColorMode

/-- The word for a mode, on the command line. -/
def name : ColorMode → String
  | .auto => "auto"
  | .always => "always"
  | .never => "never"

/-- Every mode. -/
def all : List ColorMode := [.auto, .always, .never]

/-- The mode that a word stands for. -/
def ofName? (word : String) : Option ColorMode := all.find? fun m ↦ m.name == word

theorem ofName?_eq_some_iff {word : String} {m : ColorMode} :
    ofName? word = some m ↔ m.name = word := by
  constructor
  · intro h
    simpa using List.find?_some h
  · rintro rfl
    cases m <;> decide

/-- Whether a mode uses colours on an output that is, or is not, a terminal. -/
def usesColors (mode : ColorMode) (isTerminal : Bool) : Bool :=
  match mode with
  | .auto => isTerminal
  | .always => true
  | .never => false

end ColorMode

/-! ### Escape sequences -/

/-- The byte ESC. -/
def escape : UInt8 := 0x1B

/-- The escape sequence with the given parameters. -/
def escapeSequence (parameters : String) : Bytes := escape :: utf8 ("[" ++ parameters ++ "m")

/-- Ends all colouring. -/
def resetColor : Bytes := escapeSequence "0"

/-- Starts bold text. -/
def boldText : Bytes := escapeSequence "1"

/-- Starts text in the colour of a severity: bold red, yellow, cyan and green. -/
def Severity.color : Severity → Bytes
  | .error => escapeSequence "1;31"
  | .warning => escapeSequence "1;33"
  | .note => escapeSequence "1;36"
  | .info => escapeSequence "1;32"

end Linemark
