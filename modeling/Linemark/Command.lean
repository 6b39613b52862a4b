import Linemark.Listing
import Linemark.Mark.Search
import Linemark.Stream.Failure
import Linemark.Text.Bytes

/-!
# Command line

What the program does for given arguments. A run is a value: what is written to each of the two
outputs, and the exit code. The world enters it in three places, as a function that opens paths,
as the sink that standard output is, and as the fact whether standard error is a terminal.

Listings go to standard output, reports to standard error. That nobody reads a listing to its end
is no error; that it cannot be written otherwise is. What the program says about itself goes to
standard output too, and a run that cannot say it is broken off.
-/

namespace Linemark

/-! ## Usage texts

What the program says about itself and about how it is called. -/

namespace Usage

/-- Rows of text, each ended by LF. -/
def rows (lines : List String) : Bytes := lines.flatMap fun line ↦ utf8 line ++ [lineFeed]

/-- What `mark` can be told. -/
def markOptions : List String :=
  ["  --severity=<s>      error (default), warning, note, info",
   "  --message=<text>    Message text (default: \"marked here\")",
   "  --color=<mode>      auto (default), always, never"]

/-- The program as a whole. -/
def program : Bytes :=
  rows <|
    ["lsr: line and character source reader",
     "",
     "Usage: lsr <command> [options]",
     "",
     "Commands:",
     "  lines <file>         Print each line with its terminator (LF, CR, CRLF, EOF)",
     "  chars <file>         Print each character with its line and column",
     "  mark <file> <l:c> [<l:c>]",
     "                       Point at a character or span on stderr",
     "  help                 Show this help message",
     "  version              Show version information",
     "",
     "Mark options:"] ++
    markOptions ++
    ["",
     "Examples:",
     "  lsr lines notes.txt",
     "  lsr chars notes.txt | head",
     "  lsr mark notes.txt 3:7                     # Caret under line 3, column 7",
     "  lsr mark notes.txt 3:7 4:2 --severity=note  # Underline a span",
     "",
     "Set RUST_LOG=lsr_source=debug to trace reads."]

/-- The command `mark`. -/
def mark : Bytes :=
  rows (["Usage: lsr mark <file> <line>:<col> [<line>:<col>] [options]", "", "Options:"] ++
    markOptions)

/-- The name of the program and its version. -/
def version : Bytes := rows ["lsr 0.1.0"]

end Usage

/-! ## Commands -/

/-- How an input is listed. -/
inductive ListingKind
  | lines
  | chars
  deriving DecidableEq, Repr

/-- The word for a listing, on the command line. -/
def ListingKind.name : ListingKind → String
  | .lines => "lines"
  | .chars => "chars"

/-- What arguments ask for. -/
inductive Command
  | help
  | version
  | list (kind : ListingKind) (path : String)
  /-- A listing of no input. -/
  | listNothing (kind : ListingKind)
  | mark (request : Request)
  | markWrongly (error : ArgumentError)
  | unknown (word : String)
  deriving DecidableEq, Repr

/-- How a run is left. -/
inductive Exit
  | success
  | failure
  /-- Broken off: standard output does not take what the program has to say about itself. -/
  | brokenOff (reason : Failure)
  deriving DecidableEq, Repr

/-- The exit code. -/
def Exit.code : Exit → UInt8
  | .success => 0
  | .failure => 1
  | .brokenOff _ => 101

theorem Exit.code_eq_zero_iff {exit : Exit} : exit.code = 0 ↔ exit = .success := by
  cases exit <;> simp [code]

/-- How a run ends. -/
structure Outcome where
  /-- Standard output. -/
  stdout : Sink
  /-- What is written to standard error. The reason for which a run is broken off is told behind
  it, by whoever runs the program. -/
  stderr : Bytes
  /-- How the run is left. -/
  exit : Exit
  deriving DecidableEq, Repr

namespace Outcome

/-- The exit code of a run. -/
def code (outcome : Outcome) : UInt8 := outcome.exit.code

theorem code_eq_zero_iff {outcome : Outcome} : outcome.code = 0 ↔ outcome.exit = .success :=
  Exit.code_eq_zero_iff

end Outcome

namespace Command

/-! ### Reading arguments -/

/-- The listing that arguments ask for. What follows the path is passed over. -/
def ofListing (kind : ListingKind) : List String → Command
  | [] => .listNothing kind
  | path :: _ => .list kind path

/-- What arguments ask for. -/
def ofArguments : List String → Command
  | [] => .help
  | word :: rest =>
    if word = "lines" then ofListing .lines rest
    else if word = "chars" then ofListing .chars rest
    else if word = "mark" then
      match Request.ofArguments rest with
      | .ok request => .mark request
      | .error error => .markWrongly error
    else if word = "help" ∨ word = "--help" ∨ word = "-h" then .help
    else if word = "version" ∨ word = "--version" ∨ word = "-V" then .version
    else .unknown word

/-- The input that a command reads, if it reads one. -/
def path? : Command → Option String
  | .list _ path => some path
  | .mark request => some request.path
  | _ => none

/-! ### Standard output -/

/-- What comes of writing to standard output. If it is not open for writing, what is written to it
is lost, and this is no failure. -/
def unlessLost (written : Except Refused Sink) : Except Refused Sink :=
  match written with
  | .ok sink => .ok sink
  | .error refused =>
    if refused.failure = .system .badDescriptor then .ok refused.sink else .error refused

/-- Writes to standard output. -/
def print (stdout : Sink) (bs : Bytes) : Except Refused Sink := unlessLost (stdout.writeAll bs)

/-! ### Running -/

/-- An error as it is told on standard error. -/
def errorRow (text : String) : Bytes := utf8 ("error: " ++ text ++ "\n")

/-- A run that says something about the program on standard output. -/
def ofSaid (stderr : Bytes) (exit : Exit) : Except Refused Sink → Outcome
  | .ok sink => ⟨sink, stderr, exit⟩
  | .error refused => ⟨refused.sink, stderr, .brokenOff refused.failure⟩

/-- A run that lists something on standard output. -/
def ofListed : Except Refused Sink → Outcome
  | .ok sink => ⟨sink, [], .success⟩
  | .error refused =>
    if refused.failure.kind = .brokenPipe then ⟨refused.sink, [], .success⟩
    else ⟨refused.sink, errorRow ("writing output: " ++ refused.failure.message), .failure⟩

/-- Writes a listing of a source. -/
def writeListing (stdout : Sink) (kind : ListingKind) (path : String) (source : Source) :
    Except Refused Sink :=
  match kind with
  | .lines => (stdout.listLines (.ofSource path source)).map Prod.snd
  | .chars => (stdout.listChars (.ofSource path source)).map Prod.snd

/-- Marks a place in a source on standard error. -/
def runMark (stdout : Sink) (isTerminal : Bool) (request : Request) (source : Source) :
    Outcome :=
  let reporter := Reporter.ofSink {} request.presentation.color isTerminal
  match reporter.mark (.ofSource request.path source) request with
  | (.ok (), reporter) => ⟨stdout, reporter.sink.output, .success⟩
  | (.error error, reporter) =>
    ⟨stdout, reporter.sink.output ++ errorRow (request.path ++ ": " ++ error.message), .failure⟩

/-- Runs a command. -/
def run (openPath : String → Except OpenError Source) (stdout : Sink) (isTerminal : Bool)
    (command : Command) : Outcome :=
  match command with
  | .help => ofSaid [] .success (print stdout Usage.program)
  | .version => ofSaid [] .success (print stdout Usage.version)
  | .list kind path =>
    match openPath path with
    | .error error => ⟨stdout, errorRow error.describe, .failure⟩
    | .ok source => ofListed (unlessLost (writeListing stdout kind path source))
  | .listNothing kind =>
    ⟨stdout, utf8 ("Usage: lsr " ++ kind.name ++ " <file>\n"), .failure⟩
  | .mark request =>
    match openPath request.path with
    | .error error => ⟨stdout, errorRow error.describe, .failure⟩
    | .ok source => runMark stdout isTerminal request source
  | .markWrongly error =>
    ⟨stdout, errorRow error.message ++ [lineFeed] ++ Usage.mark, .failure⟩
  | .unknown word =>
    ofSaid (utf8 ("Unknown command: " ++ word ++ "\n\n")) .failure (print stdout Usage.program)

end Command

end Linemark
