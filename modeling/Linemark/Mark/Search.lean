import Linemark.Diagnostic.Reporter
import Linemark.Line.Reader
import Linemark.Mark.Request

/-!
# Meeting a request

Finds the characters that a request points at and reports on them, with a summary. The input is
read once, and no further than to the last character asked for.
-/

namespace Linemark

/-- Why a request could not be met. -/
inductive SearchError
  /-- There is no character at a target. -/
  | notFound (target : Target)
  /-- The characters make no span. -/
  | span (error : SpanError)
  deriving DecidableEq, Repr

/-- The wording of the error. -/
def SearchError.message : SearchError → String
  | .notFound target => "no character at " ++ target.text
  | .span error => error.message

/-! ## Finding characters -/

/-- The characters found so far, each the first at its target. -/
structure Sighting where
  /-- The character at the first target. -/
  first : Option LineChar
  /-- The character at the last target, if one is asked for. -/
  last : Option LineChar
  deriving DecidableEq, Repr

namespace Sighting

/-- Nothing was found yet. -/
def start : Sighting := ⟨none, none⟩

/-- Everything that is asked for was found. -/
def isComplete (s : Sighting) (last : Option Target) : Bool :=
  s.first.isSome && (last.isNone || s.last.isSome)

/-- Looks at one more character. -/
def look (s : Sighting) (first : Target) (last : Option Target) (c : LineChar) : Sighting :=
  let at? (t : Target) : Option LineChar := if t.isAt c then some c else none
  { first := s.first <|> at? first, last := s.last <|> last.bind at? }

end Sighting

namespace CharReader

/-- Looks at characters until everything that is asked for was found. -/
def search (r : CharReader) (first : Target) (last : Option Target) : Sighting :=
  let step (s : Sighting) (c : LineChar) : Except Sighting Sighting :=
    let s := s.look first last c
    if s.isComplete last then .error s else .ok s
  match r.foldChars step .start with
  | .ok (s, _) => s
  | .error s => s

/-- The characters at the targets. If some are missing, the first of them is named. -/
def locate (r : CharReader) (first : Target) (last : Option Target) :
    Except SearchError (LineChar × Option LineChar) :=
  let s := r.search first last
  match s.first, last, s.last with
  | none, _, _ => .error (.notFound first)
  | some c, none, _ => .ok (c, none)
  | some _, some target, none => .error (.notFound target)
  | some c, some _, some d => .ok (c, some d)

/-- The report on what a request points at. -/
def reportOn (r : CharReader) (request : Request) : Except SearchError Report :=
  match r.locate request.first request.last with
  | .error error => .error error
  | .ok (c, none) => .ok (.char c)
  | .ok (c, some d) =>
    match Span.between c d with
    | .ok s => .ok (.span s)
    | .error error => .error (.span error)

end CharReader

/-! ## Reporting -/

/-- Writes the report that a request asks for, and a summary. A request that cannot be met leaves
the reporter as it was. -/
def Reporter.mark (p : Reporter) (r : CharReader) (request : Request) :
    Except SearchError Unit × Reporter :=
  match r.reportOn request with
  | .error error => (.error error, p)
  | .ok report =>
    let p := p.report report request.presentation.severity request.presentation.message
    (.ok (), p.summarize.flush)

end Linemark
