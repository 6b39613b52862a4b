import Linemark.Proofs.Listing.Rows
import Linemark.Proofs.Stream.Writing

/-!
# Listings that do not fit

A sink may take only so many bytes. A listing to it is then cut off, wherever in a row, between rows
or between the parts of a row the limit is, and says why. It is never short without saying so, and
never refused for want of room that it does not need: that the limit falls right behind the last
row, or right in front of an empty text, is no reason.

Nothing about rows is needed for this. What a listing writes is put together and written at once as
far as the sink is concerned (`Sink.listLines_eq`, `Sink.listChars_eq`), so it is enough to know how
one write of all of it ends (`Sink.endsAt_writeAll`), in whatever pieces and portions it is made.
-/

namespace Linemark

namespace Sink

/-- The sink that a listing leaves behind, whether or not all of it was taken. -/
def leftBy : Except Refused (Nat × Sink) → Sink
  | .ok listed => listed.2
  | .error refused => refused.sink

/-- The end of a listing, of so many rows and of the given bytes in all, to a new sink that takes
`limit` bytes and refuses all others. -/
structure EndsAt (limit : Nat) (refusal : Option Failure) (rows : Nat) (complete : Bytes)
    (result : Except Refused (Nat × Sink)) : Prop where
  /-- The sink has the beginning of the listing, as much of it as it takes. -/
  output_eq : (leftBy result).output = complete.take (min limit complete.length)
  /-- The rows are counted exactly if all of them fit. -/
  ok_iff : (∃ t, result = .ok (rows, t)) ↔ complete.length ≤ limit
  /-- Otherwise the sink is given the reason of, or that it takes nothing. -/
  error_iff : (∃ t, result = .error ⟨refusal.getD .writeZero, t⟩) ↔ limit < complete.length
  /-- The same is left behind, and the same reason given, by single writes of whatever pieces. -/
  writesEach_iff : ∀ (pieces : List Bytes) (written : Except Refused Sink),
    pieces.flatten = complete →
      (WritesEach { limit := some limit, refusal } pieces written ↔ result.map Prod.snd = written)

/-- **How a write of a whole listing ends.** -/
theorem endsAt_writeAll (limit : Nat) {refusal : Option Failure}
    (hkind : (refusal.getD .writeZero).kind ≠ .interrupted) (rows : Nat) (complete : Bytes) :
    EndsAt limit refusal rows complete
      ((writeAll { limit := some limit, refusal } complete).map fun t ↦ (rows, t)) := by
  let s : Sink := { limit := some limit, refusal }
  have houtput : (s.take complete).output = complete.take (min limit complete.length) := by
    rw [output_take_of_limited (s := s) rfl, ← List.take_eq_take_min]
    rfl
  have hfits : s.Fits complete ↔ complete.length ≤ limit :=
    fits_iff_of_limited (s := s) rfl complete
  have hpieces : ∀ (pieces : List Bytes) (written : Except Refused Sink),
      pieces.flatten = complete → (WritesEach s pieces written
        ↔ ((s.writeAll complete).map fun t ↦ (rows, t)).map Prod.snd = written) := by
    rintro pieces written rfl
    rw [Sink.writesEach_iff (s := s) hkind]
    cases s.writeAll pieces.flatten with
    | ok t => rfl
    | error refused => rfl
  by_cases h : s.Fits complete
  · have hle := hfits.mp h
    rw [writeAll_of_fits h] at hpieces ⊢
    exact {
      output_eq := houtput
      ok_iff := iff_of_true ⟨_, rfl⟩ hle
      error_iff := iff_of_false (fun ⟨_, ht⟩ ↦ nomatch ht) (Nat.not_lt.mpr hle)
      writesEach_iff := hpieces }
  · have hlt : ¬complete.length ≤ limit := mt hfits.mpr h
    rw [writeAll_of_not_fits h] at hpieces ⊢
    exact {
      output_eq := houtput
      ok_iff := iff_of_false (fun ⟨_, ht⟩ ↦ nomatch ht) hlt
      error_iff := iff_of_true ⟨_, rfl⟩ (Nat.lt_of_not_le hlt)
      writesEach_iff := hpieces }

/-- **A listing is written in full, or refused with the reason.** Take the listing that a sink
without limit gets. A sink that takes so many bytes, and refuses all others in any way but by
interruptions, gets the beginning of it, as much as it takes. If that is all of it, the rows are
counted, and otherwise the reason is given. It does not matter in which pieces the listing is
written, and how much of a piece each write takes. -/
theorem listings_end_at_limit (filename : String) (source : Source) (limit : Nat)
    {refusal : Option Failure} (hkind : (refusal.getD .writeZero).kind ≠ .interrupted) :
    let s : Sink := { limit := some limit, refusal }
    (∃ t, listLines {} (.ofSource filename source)
        = .ok ((LineReader.ofSource filename source).lines.1.length, t) ∧
      EndsAt limit refusal (LineReader.ofSource filename source).lines.1.length t.output
        (s.listLines (.ofSource filename source))) ∧
    ∃ t, listChars {} (.ofSource filename source)
        = .ok ((CharReader.ofSource filename source).chars.1.length, t) ∧
      EndsAt limit refusal (CharReader.ofSource filename source).chars.1.length t.output
        (s.listChars (.ofSource filename source)) := by
  intro s
  have hlines := LineReader.valid_ofSource filename source
  have hchars := CharReader.valid_ofSource filename source
  refine ⟨?_, ?_⟩
  · obtain ⟨t, ht, houtput⟩ := listLines_of_unlimited (s := {}) rfl hlines
    rw [LineReader.lines_fst hlines, List.length_map]
    refine ⟨t, ht, ?_⟩
    rw [houtput, listLines_eq s hlines]
    exact endsAt_writeAll limit hkind _ _
  · obtain ⟨t, ht, houtput⟩ := listChars_of_unlimited (s := {}) rfl hchars
    rw [CharReader.chars_fst hchars]
    refine ⟨t, ht, ?_⟩
    rw [houtput, listChars_eq s hchars]
    exact endsAt_writeAll limit hkind _ _

/-- A listing by lines to a sink that takes one byte less than the listing has, and then nothing;
and a listing by characters to a sink that takes just as many bytes, and then fails. -/
theorem listings_end_at_limit_scattered :
    let storageFull : Failure := .plain .storageFull
    let short : Sink := { limit := some 34 }
    let full : Sink := { limit := some 76, refusal := some storageFull }
    Failure.writeZero.kind ≠ .interrupted ∧ storageFull.kind ≠ .interrupted ∧
      (∃ t, short.listLines (.ofSource "input" LineBuffer.scattered) = .error ⟨.writeZero, t⟩ ∧
        t.output = utf8 "input:1: [CRLF] a\ninput:2: [EOF] b") ∧
      ∃ t, full.listChars (.ofSource "input" LineBuffer.scattered) = .ok (4, t) := by
  intro storageFull short full
  have hzero : Failure.writeZero.kind ≠ .interrupted := by decide
  have hfull : storageFull.kind ≠ .interrupted := by decide
  have hvalid := LineReader.valid_ofSource "input" LineBuffer.scattered
  have hvalid' := CharReader.valid_ofSource "input" LineBuffer.scattered
  obtain ⟨⟨t, ht, hlines⟩, -⟩ := @listings_end_at_limit "input" LineBuffer.scattered 34 none hzero
  obtain ⟨-, u, hu, hchars⟩ :=
    @listings_end_at_limit "input" LineBuffer.scattered 76 (some storageFull) hfull
  -- the listings that a sink without limit gets
  rw [output_of_listLines rfl hvalid ht, LineReader.ahead_ofSource,
    LineBuffer.ofBytes_delivered_scattered] at hlines
  rw [output_of_listChars rfl hvalid' hu, CharReader.chars_fst hvalid',
    CharReader.ahead_ofSource_eq, LineBuffer.ofBytes_delivered_scattered,
    charsAfter_eq_flatMap] at hchars
  obtain ⟨refused, hrefused⟩ := hlines.error_iff.mpr (by decide)
  have hleft := hlines.output_eq
  rw [hrefused] at hleft
  exact ⟨hzero, hfull, ⟨refused, hrefused, hleft.trans (by decide)⟩, hchars.ok_iff.mpr (by decide)⟩

end Sink

end Linemark
