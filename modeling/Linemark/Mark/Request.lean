import Linemark.Diagnostic.Severity
import Linemark.Line.Basic

/-!
# Requests

What to point at and how to say so, as read from command line arguments. Arguments that start with
two hyphens are options, wherever they stand; the others are, in order, the path of the input, the
place to point at, and for a span the place where it ends. Of an option that is given twice the
last holds.
-/

namespace Linemark

/-! ## Targets

A target is a line and a column that a user points at, written `line:column`. Neither is zero, and
neither is larger than what positions count up to; whether there is a character at a target is a
matter of the input. -/

/-- A place that is asked for. -/
structure Target where
  /-- The line, from one. -/
  line : Nat
  /-- The column, from one. -/
  column : Nat
  deriving DecidableEq, Repr

/-- Why a text is not a target. -/
inductive TargetError
  /-- There is no colon in it. -/
  | noColon (text : String)
  /-- What is before the first colon is not the number of a line. -/
  | badLine (part text : String)
  /-- What is after the first colon is not the number of a column. -/
  | badColumn (part text : String)
  deriving DecidableEq, Repr

/-- The wording of the error. -/
def TargetError.message : TargetError → String
  | .noColon text => "expected <line>:<col>, found '" ++ text ++ "'"
  | .badLine part text => "invalid line '" ++ part ++ "' in '" ++ text ++ "'"
  | .badColumn part text => "invalid column '" ++ part ++ "' in '" ++ text ++ "'"

namespace Target

/-- A target as it is shown. -/
def text (t : Target) : String := Position.coordinates t.line t.column

/-- The order of targets: by line, then by column. -/
def order (t u : Target) : Ordering := (compare t.line u.line).then (compare t.column u.column)

/-- A character is what a target asks for. -/
def isAt (t : Target) (c : LineChar) : Bool :=
  c.position.line == t.line && c.position.column == t.column

/-- Reads the number of a line or a column. -/
def readCoordinate? (part : List Char) : Option Nat :=
  (readDecimal? part).filter fun n ↦ 0 < n && n ≤ Position.limit

/-- What is before the first colon, and what is after it. -/
def splitAtColon? (text : List Char) : Option (List Char × List Char) :=
  match text.dropWhile (· != ':') with
  | [] => none
  | _ :: after => some (text.takeWhile (· != ':'), after)

/-- Reads a target. -/
def read (text : String) : Except TargetError Target :=
  match splitAtColon? text.toList with
  | none => .error (.noColon text)
  | some (before, after) =>
    match readCoordinate? before, readCoordinate? after with
    | none, _ => .error (.badLine (String.ofList before) text)
    | some _, none => .error (.badColumn (String.ofList after) text)
    | some line, some column => .ok { line, column }

end Target

/-! ## Requests -/

/-- How a diagnostic is presented. -/
structure Presentation where
  /-- How grave it is. -/
  severity : Severity := .error
  /-- What it says. -/
  message : String := "marked here"
  /-- When it is coloured. -/
  color : ColorMode := .auto
  deriving DecidableEq, Repr

/-- What to point at, and how. -/
structure Request where
  /-- The input. -/
  path : String
  /-- The place to point at, or where the span starts. -/
  first : Target
  /-- Where the span ends, if it is a span. -/
  last : Option Target
  /-- How the diagnostic is presented. -/
  presentation : Presentation
  deriving DecidableEq, Repr

/-- Why arguments are no request. -/
inductive ArgumentError
  | severity (error : UnknownSeverity)
  /-- A word that stands for no colour mode. -/
  | colorMode (word : String)
  | unknownOption (argument : String)
  /-- There are too few or too many arguments that are no options. -/
  | wrongCount
  | target (error : TargetError)
  deriving DecidableEq, Repr

/-- The wording of the error. -/
def ArgumentError.message : ArgumentError → String
  | .severity error => error.message
  | .colorMode word => "invalid color mode '" ++ word ++ "' (expected auto, always or never)"
  | .unknownOption argument => "unknown option '" ++ argument ++ "'"
  | .wrongCount => "expected <file> <line>:<col> [<line>:<col>]"
  | .target error => error.message

/-- What follows the first part of a text, if the text starts with it. -/
def afterPrefix? (start text : String) : Option String :=
  (start.toList.isPrefixOf? text.toList).map String.ofList

/-! ### Options -/

/-- The argument is an option. -/
def isOption (argument : String) : Bool := (afterPrefix? "--" argument).isSome

/-- Reads one option into what earlier options asked for. -/
def Presentation.readOption (p : Presentation) (argument : String) :
    Except ArgumentError Presentation :=
  match afterPrefix? "--severity=" argument with
  | some word =>
    match Severity.read word with
    | .ok severity => .ok { p with severity }
    | .error error => .error (.severity error)
  | none =>
    match afterPrefix? "--message=" argument with
    | some message => .ok { p with message }
    | none =>
      match afterPrefix? "--color=" argument with
      | some word =>
        match ColorMode.ofName? word with
        | some color => .ok { p with color }
        | none => .error (.colorMode word)
      | none => .error (.unknownOption argument)

/-! ### Arguments -/

namespace Request

/-- Goes through arguments, reading options and setting the others apart. -/
def readArguments (p : Presentation) (places : List String) :
    List String → Except ArgumentError (Presentation × List String)
  | [] => .ok (p, places)
  | argument :: rest =>
    if isOption argument then
      match p.readOption argument with
      | .ok p => readArguments p places rest
      | .error error => .error error
    else readArguments p (places ++ [argument]) rest

/-- Reads the place to point at, or an end of a span. -/
def readTarget (text : String) : Except ArgumentError Target :=
  (Target.read text).mapError .target

/-- Reads a request. A bad option comes before a wrong number of places, and that before a bad
place. -/
def ofArguments (arguments : List String) : Except ArgumentError Request := do
  let (presentation, places) ← readArguments {} [] arguments
  match places with
  | [path, first] => return { path, first := ← readTarget first, last := none, presentation }
  | [path, first, last] =>
    return { path, first := ← readTarget first, last := some (← readTarget last), presentation }
  | _ => throw .wrongCount

end Request

end Linemark
