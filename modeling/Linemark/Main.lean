import Linemark.Command

/-!
# The program

Opens the input that the arguments name, runs the command on it, and writes what the run came to.
Everything that is decided is decided by `Command.run`.
-/

namespace Linemark

namespace Program

/-- The number of a failure that the operating system reported. -/
def systemNumber? : IO.Error → Option UInt32
  | .alreadyExists _ number _ => some number
  | .otherError number _ => some number
  | .resourceBusy number _ => some number
  | .resourceVanished number _ => some number
  | .unsupportedOperation number _ => some number
  | .hardwareFault number _ => some number
  | .unsatisfiedConstraints number _ => some number
  | .illegalOperation number _ => some number
  | .protocolError number _ => some number
  | .timeExpired number _ => some number
  | .interrupted _ number _ => some number
  | .noFileOrDirectory _ number _ => some number
  | .invalidArgument _ number _ => some number
  | .permissionDenied _ number _ => some number
  | .resourceExhausted _ number _ => some number
  | .inappropriateType _ number _ => some number
  | .noSuchThing _ number _ => some number
  | .unexpectedEof => none
  | .userError _ => none

/-- A failure reported while opening, reading or writing. -/
def failureOf (error : IO.Error) : Failure :=
  match systemNumber? error with
  | some number => .system ⟨number.toNat⟩
  | none => .described .other error.toString

/-- Reads an open file, as far as it can be read. -/
def readAll (handle : IO.FS.Handle) : IO Source := do
  let mut script : Array Item := #[]
  let mut more := true
  while more do
    try
      let bytes ← handle.read 4096
      if bytes.isEmpty then more := false
      else script := script.push (.data bytes.data.toList)
    catch error =>
      let kind := (failureOf error).kind
      script := script.push (.failure kind)
      more := kind == .interrupted
  return { script := script.toList }

/-- Opens a file and reads it. -/
def openFile (path : String) : IO (Except OpenError Source) := do
  try
    return .ok (← readAll (← IO.FS.Handle.mk path .read))
  catch error => return .error { path, failure := failureOf error }

/-- Writes the outcome of a run. -/
def finish (command : Command) (openPath : String → Except OpenError Source) (isTerminal : Bool) :
    IO UInt32 := do
  let outcome := command.run openPath {} isTerminal
  let outcome ←
    try
      let stdout ← IO.getStdout
      stdout.write ⟨outcome.stdout.written⟩
      stdout.flush
      pure outcome
    catch error =>
      let refusing : Sink := { limit := some 0, refusal := some (failureOf error) }
      pure (command.run openPath refusing isTerminal)
  let stderr ← IO.getStderr
  stderr.write ⟨outcome.stderr.toArray⟩
  if let .brokenOff reason := outcome.exit then
    stderr.putStrLn ("failed printing to stdout: " ++ reason.message)
  return outcome.code.toUInt32

end Program

end Linemark

open Linemark in
/-- Runs the program. -/
def main (arguments : List String) : IO UInt32 := do
  let command := Command.ofArguments arguments
  let opened ←
    match command.path? with
    | none => pure (.ok (.ofBytes []))
    | some path => Program.openFile path
  Program.finish command (fun _ ↦ opened) (← (← IO.getStderr).isTty)
