import Linemark.Proofs.Diagnostic.Output
import Linemark.Proofs.Stream.Writing

/-!
# Sinks that are full

A reporter does not notice that its sink is full. It goes on with the rows of a report whose first
row was refused, with the summary behind it, and with whatever it is called for next. All of these
writes are made, and still none of them leaves anything behind a gap: a sink with a limit holds the
beginning of what it would hold without one, cut off wherever the limit is, and everything that is
counted is counted as if nothing had been refused.

`Reporter.Truncates` relates the two reporters. That a call keeps it needs nothing about the rows
and their parts, since a call of whatever kind is its pieces (`Reporter.output_call`), and the
pieces depend on the counts only.
-/

namespace Linemark

namespace Reporter

/-- A reporter whose sink has a limit, beside one whose sink takes everything. What they count is
the same, and the one sink holds the beginning of what is in the other. -/
structure Truncates (limit : Nat) (p q : Reporter) : Prop where
  /-- Both use colours, or neither does. -/
  colors_eq : p.colors = q.colors
  /-- Both have counted the same. -/
  tally_eq : p.tally = q.tally
  /-- The one sink takes so many bytes. -/
  limit_eq : p.sink.limit = some limit
  /-- The other takes everything. -/
  limit_eq_none : q.sink.limit = none
  /-- What the one took is the beginning of what the other took. -/
  output_eq : p.sink.output = q.sink.output.take limit

variable {limit : Nat} {p q : Reporter}

private theorem truncates_ofSink (limit : Nat) (refusal : Option Failure) (mode : ColorMode)
    (isTerminal : Bool) :
    Truncates limit (ofSink { limit := some limit, refusal } mode isTerminal)
      (ofSink {} mode isTerminal) where
  colors_eq := rfl
  tally_eq := rfl
  limit_eq := rfl
  limit_eq_none := rfl
  output_eq := List.take_nil.symm

/-- One call keeps two reporters alike, wherever the limit is in what the call writes. -/
theorem Truncates.call (h : Truncates limit p q) (c : Call) :
    Truncates limit (p.call c) (q.call c) where
  colors_eq := by rw [colors_call, colors_call, h.colors_eq]
  tally_eq := by rw [tally_call, tally_call, h.tally_eq]
  limit_eq := (p.limit_call c).1.trans h.limit_eq
  limit_eq_none := (q.limit_call c).1.trans h.limit_eq_none
  output_eq := by
    rw [output_call, output_call, h.colors_eq, h.tally_eq]
    exact Sink.output_take_eq_take h.limit_eq h.limit_eq_none h.output_eq _

theorem Truncates.after (h : Truncates limit p q) (calls : List Call) :
    Truncates limit (p.after calls) (q.after calls) := by
  induction calls generalizing p q with
  | nil => exact h
  | cons c calls ih => exact ih (h.call c)

/-- **A full sink disturbs nothing.** Of two new reporters that are called alike, one writes to a
sink that takes so many bytes and refuses all others, in any way but by interruptions, and the other
to a sink that takes everything. Whichever calls were made, the one sink holds the beginning of what
is in the other, as much of it as it takes; errors, warnings and flushes are counted alike; and
whatever is written next comes to its end, write by write. -/
theorem output_after_eq_take (limit : Nat) {refusal : Option Failure}
    (hkind : (refusal.getD .writeZero).kind ≠ .interrupted) (mode : ColorMode) (isTerminal : Bool)
    (calls : List Call) :
    let full := (ofSink { limit := some limit, refusal } mode isTerminal).after calls
    let free := (ofSink {} mode isTerminal).after calls
    full.sink.output = free.sink.output.take (min limit free.sink.output.length) ∧
      free.sink.output = pieceBytes (mode.usesColors isTerminal) (piecesAfter .start calls) ∧
      full.errors = free.errors ∧ full.warnings = free.warnings ∧
      full.hasErrors = free.hasErrors ∧ full.sink.flushes = free.sink.flushes ∧
      ∀ bs, full.sink.Writes bs (full.sink.writeAll bs) := by
  intro full free
  have h : Truncates limit full free := (truncates_ofSink limit refusal mode isTerminal).after calls
  have herrors : full.errors = free.errors := congrArg Tally.errors h.tally_eq
  have hflushes : full.sink.flushes = free.sink.flushes := congrArg Tally.flushes h.tally_eq
  refine ⟨?_, ?_, herrors, congrArg Tally.warnings h.tally_eq, ?_, hflushes, ?_⟩
  · rw [← List.take_eq_take_min]
    exact h.output_eq
  · have hlimit : ({} : Sink).limit = none := rfl
    exact output_after_ofSink hlimit mode isTerminal calls
  · rw [hasErrors, hasErrors, herrors]
  · have hrefusal : full.sink.refusal = refusal := (limit_after _ calls).2
    refine Sink.writes_writeAll ?_
    rwa [Sink.reason, hrefusal]

/-- A warning and a summary to a sink that is full after nine bytes. -/
theorem output_after_eq_take_nine :
    let storageFull : Failure := .plain .storageFull
    let calls : List Call :=
      [.named .warning (.line ⟨⟨"f", 1, 0⟩, utf8 "ab"⟩) "m", .summarize, .flush]
    let p := (ofSink { limit := some 9, refusal := some storageFull } .never false).after calls
    storageFull.kind ≠ .interrupted ∧ p.sink.output = utf8 "f:1: warn" ∧ p.warnings = 1 ∧
      p.sink.flushes = 1 := by
  intro storageFull calls p
  have hkind : storageFull.kind ≠ .interrupted := by decide
  obtain ⟨houtput, hfree, -, hwarnings, -, hflushes, -⟩ :=
    @output_after_eq_take 9 (some storageFull) hkind .never false calls
  rw [hfree] at houtput
  exact ⟨hkind, houtput.trans (by decide), hwarnings.trans rfl, hflushes.trans rfl⟩

end Reporter

end Linemark
