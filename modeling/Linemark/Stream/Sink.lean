import Linemark.Text.Bytes
import Linemark.Stream.Failure

/-!
# Sinks

A sink takes bytes. It may take only so many in all: a write that fits partly is taken partly, and
from then on every write that is not empty is refused, by taking nothing or by a failure. Writing
all of some bytes succeeds exactly if the sink has room for them, and what ends up in the sink is
always the beginning of what was written to it.

A write that is interrupted is made again. So an interruption is no reason for giving up, and where
a sink refuses by interruptions, writing to it has no end; what is said here about a refused write
is about the other reasons.
-/

namespace Linemark

/-- Something that takes bytes. -/
structure Sink where
  /-- The bytes taken so far. -/
  written : Array UInt8 := #[]
  /-- How many bytes it takes in all, if there is a limit. -/
  limit : Option Nat := none
  /-- What a write beyond the limit fails with; if nothing, such a write takes nothing. -/
  refusal : Option Failure := none
  /-- How often it was told to flush. -/
  flushes : Nat := 0
  deriving DecidableEq, Repr

/-- A write that was not taken in full. -/
structure Refused where
  /-- The reason. -/
  failure : Failure
  /-- The sink, with the part that was taken. -/
  sink : Sink
  deriving DecidableEq, Repr

namespace Sink

/-- The bytes taken so far, in order. -/
def output (s : Sink) : Bytes := s.written.toList

/-- How many of `n` bytes the sink has room for. -/
def room (s : Sink) (n : Nat) : Nat :=
  match s.limit with
  | none => n
  | some limit => min n (limit - s.written.size)

/-- Adds bytes, as far as there is room. -/
def take (s : Sink) (bs : Bytes) : Sink :=
  { s with written := s.written ++ bs.take (s.room bs.length) }

/-- Why bytes are not taken: a sink that takes nothing has not written the whole. -/
def reason (s : Sink) : Failure := s.refusal.getD .writeZero

/-- Writes all of some bytes, unless the sink refuses them for good. -/
def writeAll (s : Sink) (bs : Bytes) : Except Refused Sink :=
  if s.room bs.length = bs.length then .ok (s.take bs) else .error ⟨s.reason, s.take bs⟩

/-- Tells the sink to flush. -/
def flush (s : Sink) : Sink := { s with flushes := s.flushes + 1 }

theorem output_take (s : Sink) (bs : Bytes) :
    (s.take bs).output = s.output ++ bs.take (s.room bs.length) := by
  simp [take, output]

end Sink

end Linemark
