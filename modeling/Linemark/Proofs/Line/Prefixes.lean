import Linemark.Proofs.Line.Buffering

/-!
# Inputs that are cut short

A source that fails delivers a beginning of what it would have delivered. What this does to the
lines is a question about byte strings: which lines of an input are still its lines when bytes come
behind it. All but the last are, wherever the cut is (`RawLine.ofBytes_join_append`), since what
decides how a line ends is at most the first byte of the line behind it.

The last line is `RawLine.ContinuedBy` what follows. If the cut is inside of it there is more of its
text to come. If it was terminated it is whole, and only one thing can still happen to it: CR at the
cut and LF behind it are one terminator.
-/

namespace Linemark

theorem Terminator.CanPrecede.append {t : Terminator} {bs : Bytes} (h : t.CanPrecede bs)
    (hne : bs ≠ []) (rest : Bytes) : t.CanPrecede (bs ++ rest) := by
  refine ⟨fun heof ↦ absurd (h.1 heof) hne, fun hcr ↦ ?_⟩
  rw [List.head?_append_of_ne_nil bs hne]
  exact h.2 hcr

namespace RawLine

/-- Only the last line feels what comes behind an input. -/
theorem ofBytes_join_append {ls : List RawLine} {l : RawLine} (h : WellFormed (ls ++ [l]))
    (rest : Bytes) : ofBytes (join (ls ++ [l]) ++ rest) = ls ++ ofBytes (l.bytes ++ rest) := by
  induction ls with
  | nil => rw [List.nil_append, join_cons, join_nil, List.append_nil, List.nil_append]
  | cons m ls ih =>
    rw [List.cons_append] at h ⊢
    obtain ⟨hm, hcan, hls⟩ := wellFormed_cons_iff.mp h
    have hne : join (ls ++ [l]) ≠ [] := by
      rw [Ne, join_eq_nil_iff hls.proper]
      simp
    rw [join_cons, List.append_assoc,
      ofBytes_bytes_append hm.unbroken (hcan.append hne rest) hm.bytes_ne_nil, ih hls,
      List.cons_append]

/-! ## The last line -/

/-- What the last line of an input can be when the input goes on. -/
structure ContinuedBy (l : RawLine) (rest : Bytes) (m : RawLine) : Prop where
  /-- What there was of the text is its beginning. -/
  text_prefix : l.text <+: m.text
  /-- A line that was terminated had all of its text. -/
  text_eq : l.terminator ≠ .eof → m.text = l.text
  /-- It had its terminator as well, unless that was the CR of a CR LF. -/
  terminator_eq : l.terminator ≠ .eof → m.terminator =
    if l.terminator = .cr ∧ rest.head? = some lineFeed then .crlf else l.terminator

/-- A text that was cut off goes on up to the next line break. -/
theorem continuedBy_first_of_eof {l : RawLine} (hl : l.Proper) (h : l.terminator = .eof)
    (rest : Bytes) : ContinuedBy l rest (first (l.bytes ++ rest)).1 where
  text_prefix := by
    have hbytes : l.bytes = l.text := by rw [bytes, h, Terminator.bytes, List.append_nil]
    have hunbroken : ∀ b ∈ l.text, (!Linemark.isBreak b) = true := by
      intro b hb
      rw [hl.unbroken b hb]
      rfl
    rw [hbytes, first, List.takeWhile_append_of_pos hunbroken]
    exact List.prefix_append l.text _
  text_eq hne := absurd h hne
  terminator_eq hne := absurd h hne

private theorem ofBytes_bytes_append_lineFeed {l : RawLine} (hl : l.Proper) (h : l.terminator = .cr)
    (after : Bytes) :
    ofBytes (l.bytes ++ lineFeed :: after) = ⟨l.text, .crlf⟩ :: ofBytes after := by
  let merged : RawLine := ⟨l.text, .crlf⟩
  have hbytes : l.bytes ++ lineFeed :: after = merged.bytes ++ after := by
    simp [bytes, h, Terminator.bytes, merged]
  have hcan : merged.terminator.CanPrecede after := by simp [Terminator.CanPrecede, merged]
  have hne : merged.bytes ≠ [] := by simp [bytes, Terminator.bytes, merged]
  rw [hbytes]
  exact ofBytes_bytes_append hl.unbroken hcan hne

/-- The last line goes on. -/
theorem exists_continuedBy {l : RawLine} (hl : l.Proper) (rest : Bytes) :
    ∃ m ms, ofBytes (l.bytes ++ rest) = m :: ms ∧ ContinuedBy l rest m := by
  by_cases heof : l.terminator = .eof
  · refine ⟨_, _, ofBytes_of_ne_nil ?_, continuedBy_first_of_eof hl heof rest⟩
    simp [hl.bytes_ne_nil]
  · by_cases hmerge : l.terminator = .cr ∧ rest.head? = some lineFeed
    · obtain ⟨after, rfl⟩ : ∃ after, rest = lineFeed :: after :=
        ⟨rest.tail, List.eq_cons_of_mem_head? hmerge.2⟩
      refine ⟨_, _, ofBytes_bytes_append_lineFeed hl hmerge.1 after, List.prefix_refl l.text,
        fun _ ↦ rfl, fun _ ↦ ?_⟩
      rw [if_pos hmerge]
    · have hcan : l.terminator.CanPrecede rest :=
        ⟨fun h ↦ absurd h heof, fun hcr hhead ↦ hmerge ⟨hcr, hhead⟩⟩
      refine ⟨l, _, ofBytes_bytes_append hl.unbroken hcan hl.bytes_ne_nil,
        List.prefix_refl l.text, fun _ ↦ rfl, fun _ ↦ ?_⟩
      rw [if_neg hmerge]

/-- **The lines of a beginning** are those of the whole, but for the last of them. -/
theorem ofBytes_append (bs rest : Bytes) :
    ofBytes bs = [] ∨ ∃ ls l m ms, ofBytes bs = ls ++ [l] ∧
      ofBytes (bs ++ rest) = ls ++ m :: ms ∧ ContinuedBy l rest m := by
  rcases List.eq_nil_or_concat' (ofBytes bs) with hnil | ⟨ls, l, hlines⟩
  · exact .inl hnil
  · have hwell := wellFormed_ofBytes bs
    have hjoin := join_ofBytes bs
    rw [hlines] at hwell hjoin
    obtain ⟨m, ms, hm, hcontinued⟩ := exists_continuedBy (hwell.proper l (by simp)) rest
    refine .inr ⟨ls, l, m, ms, hlines, ?_, hcontinued⟩
    rw [← hm, ← ofBytes_join_append hwell, hjoin]

end RawLine

/-! ## Sources that are cut short -/

namespace LineBuffer

/-- **A failure damages the last line only.** If a source delivers a beginning of what another one
delivers, however the two are read, it has no more lines, all of its lines but the last are lines of
the other at the same places, and the last is continued by what it does not deliver. -/
theorem lines_of_prefix {source other : Source} (h : source.delivered <+: other.delivered)
    (size otherSize : Nat) :
    let ps := (ofSize source size).lines.1
    let ds := (ofSize other otherSize).lines.1
    ps.length ≤ ds.length ∧
      (∀ i, i + 1 < ps.length → ps[i]? = ds[i]?) ∧
      ∀ l ∈ ps.getLast?, ∃ m ∈ ds[ps.length - 1]?,
        l.ContinuedBy (other.delivered.drop source.delivered.length) m := by
  intro ps ds
  obtain ⟨rest, hrest⟩ := h
  have hps : ps = RawLine.ofBytes source.delivered := lines_ofSize_fst source size
  have hds : ds = RawLine.ofBytes (source.delivered ++ rest) := by
    rw [hrest]
    exact lines_ofSize_fst other otherSize
  rw [← hrest, List.drop_left]
  rcases RawLine.ofBytes_append source.delivered rest with hnil | ⟨ls, l, m, ms, hl, hm, hcontinued⟩
  · rw [← hps] at hnil
    simp [hnil]
  · rw [hps, hds, hl, hm]
    refine ⟨by simp, fun i hi ↦ ?_, fun l' hl' ↦ ?_⟩
    · have hlt : i < ls.length := by simpa using hi
      rw [List.getElem?_append_left hlt, List.getElem?_append_left hlt]
    · obtain rfl : l = l' := by simpa using hl'
      exact ⟨m, by simp, hcontinued⟩

/-- A source that fails between CR and LF, and has more behind the failure. -/
def broken : Source :=
  { script := [.data [0x61, 0x0A, 0x62, 0x0D], .failure .timedOut, .data [0x0A, 0x63]] }

theorem lines_of_prefix_broken :
    broken.delivered <+: (Source.ofBytes [0x61, 0x0A, 0x62, 0x0D, 0x0A, 0x63]).delivered ∧
      ∃ m ∈ (ofSize (.ofBytes [0x61, 0x0A, 0x62, 0x0D, 0x0A, 0x63]) 1).lines.1[1]?,
        m.text = [0x62] ∧ m.terminator = .crlf := by
  have h : broken.delivered <+:
      (Source.ofBytes [0x61, 0x0A, 0x62, 0x0D, 0x0A, 0x63]).delivered := by
    decide
  have hlines : (ofSize broken 4096).lines.1 = [⟨[0x61], .lf⟩, ⟨[0x62], .cr⟩] := by
    rw [lines_ofSize_fst]
    change RawLine.ofBytes (RawLine.join [⟨[0x61], .lf⟩, ⟨[0x62], .cr⟩]) = _
    exact RawLine.ofBytes_join (by decide)
  obtain ⟨-, -, hlast⟩ := lines_of_prefix h 4096 1
  rw [hlines] at hlast
  obtain ⟨m, hm, hcontinued⟩ := hlast ⟨[0x62], .cr⟩ rfl
  refine ⟨h, m, hm, hcontinued.text_eq (by decide), ?_⟩
  exact hcontinued.terminator_eq (by decide)

end LineBuffer

end Linemark
