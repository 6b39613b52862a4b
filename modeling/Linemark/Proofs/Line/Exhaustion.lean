import Linemark.Proofs.Line.LockStep
import Linemark.Proofs.Line.Reading

/-!
# The end of an input

The end of an input is found by a read that hands over nothing or fails, in the line loop or in the
look behind a CR. From then on a buffer is left as it is: every call gives none and changes nothing,
and the source keeps what it has not handed over. `Exhausted` says this of a buffer and of the two
readers, together with the number of reads that led there, which depends on nothing but the script
and the space that is read into.

Nothing here needs another look at the line loop. `LineBuffer.Reads` has followed it up to the end,
and says in which states the input has ended; what is left to be said is that a buffer in such a
state gives no line, and which calls of a reader come to one.
-/

namespace Linemark

/-- Reads into space for `size` bytes are all that was done to a source. There were `made` of them,
and none came after one that ended the input. -/
structure Source.IsReadTo (source : Source) (size made : Nat) (later : Source) : Prop where
  /-- What is left is what the reads left. -/
  later_eq : later = source.afterReads size made
  /-- They have been counted. -/
  reads_eq : later.reads = source.reads + made
  /-- A read that ended the input was the last one. -/
  eq_succ_of_endsInput : ∀ k < made, (source.answer size k).endsInput = true → made = k + 1

/-! ## Buffers -/

namespace LineBuffer

/-- The input is at its end: the source was read as often as it takes to get there, no call gives a
line, and no call changes anything. -/
structure Exhausted (source : Source) (size : Nat) (s : LineBuffer) : Prop where
  /-- The source was read to its end, and no further. -/
  isReadTo : source.IsReadTo size (source.readsToEnd size) s.source
  /-- Whatever calls are made, the next one gives none and leaves this buffer behind. -/
  nextLine_eq : ∀ n, (s.takeLines n).2.nextLine = (none, s)

/-- The source is read as far as it goes, and the buffer rests as soon as the end is known. -/
structure StopsReading (source : Source) (size : Nat) (s : LineBuffer) : Prop where
  /-- If one of the reads ended the input the end has been reached. -/
  isReadTo : ∃ made, source.IsReadTo size made s.source ∧
    ∀ k < made, (source.answer size k).endsInput = true → Exhausted source size s
  /-- It has been reached as well when there is no line, and with a line that has no terminator. -/
  exhausted_nextLine : (∀ l ∈ s.nextLine.1, l.terminator = .eof) →
    Exhausted source size s.nextLine.2

variable {source : Source} {size k n : Nat} {s : LineBuffer}

private theorem takeLines_of_nextLine_eq (h : s.nextLine = (none, s)) (n : Nat) :
    s.takeLines n = ([], s) := by
  induction n with
  | zero => rfl
  | succ n ih =>
    rw [takeLines, h]
    dsimp only
    rw [ih]
    rfl

private theorem Reads.isReadTo (h : Reads (ofSize source size) k n s) :
    source.IsReadTo (max size 1) k s.source where
  later_eq := h.source_eq_afterReads
  reads_eq := h.reads_eq
  eq_succ_of_endsInput _ hi hends := (h.stopsAtEnd.eq_succ_of_endsInput hi hends).1

/-- When the input has ended the buffer rests. -/
theorem Reads.exhausted (h : Reads (ofSize source size) k n s) (hended : s.ended = true) :
    Exhausted source (max size 1) s := by
  have hstops := h.stopsAtEnd
  rw [hended] at hstops
  have hsize : 0 < max size 1 := Nat.lt_of_lt_of_le Nat.one_pos (Nat.le_max_right size 1)
  have hreads : k = source.readsToEnd (max size 1) := hstops.eq_readsToEnd hsize
  have hnext := nextLine_of_ended h.valid hended
  refine ⟨hreads ▸ h.isReadTo, fun n ↦ ?_⟩
  rw [takeLines_of_nextLine_eq hnext, hnext]

private theorem Reads.stopsReading (h : Reads (ofSize source size) k n s) :
    StopsReading source (max size 1) s where
  isReadTo := ⟨k, h.isReadTo, fun _ hi hends ↦
    h.exhausted (h.stopsAtEnd.eq_succ_of_endsInput hi hends).2⟩
  exhausted_nextLine heof := by
    obtain ⟨j, m, hnext⟩ := readsFor_nextLine h.valid
    have hall := (h.mono (Nat.le_max_left n m)).trans (hnext.mono (Nat.le_max_right n m))
    exact hall.exhausted (hnext.ended_of_eof heof)

private theorem stopsReading_takeLines (source : Source) (size n : Nat) :
    StopsReading source (max size 1) ((ofSize source size).takeLines n).2 := by
  obtain ⟨k, hreads⟩ := reads_takeLines (valid_ofSize source size) n
  exact hreads.stopsReading

private theorem exists_nextLine_of_foldLines {α : Type} (f : α → RawLine → α) (init : α)
    (s : LineBuffer) : ∃ n, (s.takeLines n).2.nextLine = (none, (s.foldLines f init).2) := by
  fun_induction foldLines f init s with
  | case1 init s next hn => exact ⟨0, hn⟩
  | case2 init s line next hn ih =>
    obtain ⟨n, hlast⟩ := ih
    refine ⟨n + 1, ?_⟩
    rw [takeLines, hn]
    exact hlast

private theorem exhausted_lines (source : Source) (size : Nat) :
    Exhausted source (max size 1) (ofSize source size).lines.2 := by
  obtain ⟨n, hlast⟩ := exists_nextLine_of_foldLines Array.push #[] (ofSize source size)
  have hstops := (stopsReading_takeLines source size n).exhausted_nextLine
  rw [hlast] at hstops
  exact hstops (by simp)

end LineBuffer

/-! ## Readers -/

/-- The input of a reader is at its end, and no call gives anything or changes anything. -/
structure Interface.Exhausted {ρ γ α : Type} (reader : Interface ρ γ (Option α)) (source : Source)
    (r : ρ) : Prop where
  /-- The source was read to its end, and no further. -/
  isReadTo : source.IsReadTo 4096 (source.readsToEnd 4096) (reader.input r).source
  /-- Whatever calls are made, the next one gives none and leaves this reader behind. -/
  call_eq : ∀ calls c, reader.call (reader.after r calls) c = (none, r)

private theorem Interface.exhausted_of_rest {ρ γ α : Type} {reader : Interface ρ γ (Option α)}
    {source : Source} {r : ρ} (h : (reader.input r).Exhausted source 4096)
    (hrest : ∀ c, reader.call r c = (none, r)) : reader.Exhausted source r :=
  ⟨h.isReadTo, call_afterCalls_of_rest hrest hrest⟩

/-! ## Line readers -/

namespace LineReader

/-- The input of a line reader is at its end, and no call gives a line or changes anything. -/
abbrev Exhausted (source : Source) (r : LineReader) : Prop := interface.Exhausted source r

variable {source : Source} {r : LineReader}

private theorem exhausted_of_input (h : r.input.Exhausted source 4096) : r.Exhausted source := by
  have hnext : r.input.nextLine = (none, r.input) := h.nextLine_eq 0
  have hread : r.readTerminated = (none, r) := by rw [readTerminated, hnext]
  refine Interface.exhausted_of_rest h fun c ↦ ?_
  change r.call c = _
  cases c with
  | line => simp [call, readLine, hread]
  | terminated => simp [call, hread]

private theorem stopsReading_after (filename : String) (source : Source) (calls : List Call) :
    LineBuffer.StopsReading source 4096 ((ofSource filename source).after calls).input := by
  rw [((ofSource filename source).input_after calls).1]
  exact LineBuffer.stopsReading_takeLines source 4096 calls.length

private theorem exhausted_call (h : LineBuffer.StopsReading source 4096 r.input)
    (heof : ∀ l ∈ r.readTerminated.1, l.2 = .eof) (c : Call) : (r.call c).2.Exhausted source := by
  have hinput : (r.call c).2.input = r.input.nextLine.2 := interface.input_call r c
  refine exhausted_of_input ?_
  rw [hinput]
  refine h.exhausted_nextLine ?_
  revert heof
  fun_cases readTerminated r with
  | case1 input hn => simp [hn]
  | case2 split input hn => simp [hn]

private theorem exists_readTerminated_of_foldLines {α ε : Type}
    {f : α → Line × Terminator → Except ε α}
    {init a : α} {t : LineReader} (h : r.foldLines f init = .ok (a, t)) :
    ∃ calls, (r.after calls).readTerminated = (none, t) := by
  fun_induction foldLines f init r with
  | case1 init r next hread =>
    obtain ⟨-, rfl⟩ : init = a ∧ next = t := by simpa using h
    exact ⟨[], hread⟩
  | case2 init r l next hread b hf ih =>
    obtain ⟨calls, hlast⟩ := ih h
    refine ⟨.terminated :: calls, ?_⟩
    change ((r.call .terminated).2.after calls).readTerminated = _
    rw [call_snd, hread]
    exact hlast
  | case3 init r l next hread e hf => cases h

private theorem exhausted_lines (filename : String) (source : Source) :
    (ofSource filename source).lines.2.Exhausted source := by
  rw [lines]
  split
  next ls t h =>
    obtain ⟨calls, hlast⟩ := exists_readTerminated_of_foldLines h
    have hend := exhausted_call (c := .terminated) (stopsReading_after filename source calls)
      (by simp [hlast])
    rwa [call_snd, hlast] at hend

end LineReader

/-! ## Character readers -/

namespace CharReader

/-- The input of a character reader is at its end, and no call gives a character or changes
anything. -/
abbrev Exhausted (source : Source) (r : CharReader) : Prop := interface.Exhausted source r

variable {source : Source} {r : CharReader}

private theorem stopsReading_after (filename : String) (source : Source) (calls : List Call) :
    LineBuffer.StopsReading source 4096 ((ofSource filename source).after calls).input := by
  rw [((ofSource filename source).input_after calls).1]
  exact LineBuffer.stopsReading_takeLines source 4096 _

private theorem nextLine_of_here_settle_eq_none (h : r.settle.here = none) :
    r.input.nextLine = (none, r.settle.input) := by
  fun_cases settle r with
  | case1 c hc => simp [settle_of_current hc, here, hc] at h
  | case2 hc input hn => exact hn
  | case3 hc l input hn => simp [settle, hc, hn, here] at h

private theorem exhausted_call (hr : r.input.Valid)
    (h : LineBuffer.StopsReading source 4096 r.input)
    (hnone : r.peek.1 = none) (c : Call) : (r.call c).2.Exhausted source := by
  have hhere : r.settle.here = none := hnone
  have hnext := nextLine_of_here_settle_eq_none hhere
  have hinput := h.exhausted_nextLine (by simp [hnext])
  rw [hnext] at hinput
  rw [call_of_here_settle_eq_none hhere c]
  -- the settled reader is one that settling leaves as it is
  refine Interface.exhausted_of_rest hinput fun d ↦ ?_
  have hrest := call_of_here_settle_eq_none (r := r.settle) (by rwa [settle_settle hr]) d
  rwa [settle_settle hr] at hrest

private theorem exists_read_of_foldChars {α ε : Type} {f : α → LineChar → Except ε α} {init a : α}
    {t : CharReader} (h : r.foldChars f init = .ok (a, t)) :
    ∃ calls, (r.after calls).read = (none, t) := by
  fun_induction foldChars f init r with
  | case1 init r next hread =>
    obtain ⟨-, rfl⟩ : init = a ∧ next = t := by simpa using h
    exact ⟨[], hread⟩
  | case2 init r c next hread b hf ih =>
    obtain ⟨calls, hlast⟩ := ih h
    refine ⟨.read :: calls, ?_⟩
    change (r.read.2.after calls).read = _
    rw [hread]
    exact hlast
  | case3 init r c next hread e hf => cases h

private theorem exhausted_chars (filename : String) (source : Source) :
    (ofSource filename source).chars.2.Exhausted source := by
  rw [chars]
  split
  next cs t h =>
    obtain ⟨calls, hlast⟩ := exists_read_of_foldChars h
    have hvalid : ((ofSource filename source).after calls).input.Valid :=
      interface.valid_after (r := ofSource filename source) (valid_ofSource filename source) calls
    have hnone : ((ofSource filename source).after calls).peek.1 = none := by
      rw [(peek_spec hvalid).2.1, ← (read_spec hvalid).2.1, hlast]
    have hend := exhausted_call hvalid (stopsReading_after filename source calls) hnone .read
    rwa [call, hlast] at hend

end CharReader

/-! ## Every interface -/

/-- **The end of an input is permanent, and the number of reads is exact.** Whichever way a source
is asked for lines, and however often, no read is made after one that ended the input. Once there is
no line, or a line without terminator, nothing changes any more; the source has then been read as
often as it takes to read its data up to the end, to be interrupted on the way, and to find the
end. -/
theorem reads_stop_at_end (source : Source) :
    (∀ size,
      (∀ n, LineBuffer.StopsReading source (max size 1)
        ((LineBuffer.ofSize source size).takeLines n).2) ∧
      LineBuffer.Exhausted source (max size 1) (LineBuffer.ofSize source size).lines.2) ∧
    (∀ filename,
      let r := LineReader.ofSource filename source
      (∀ calls, LineBuffer.StopsReading source 4096 (r.after calls).input ∧
        ((∀ l ∈ (r.after calls).readTerminated.1, l.2 = .eof) →
          ∀ c, ((r.after calls).call c).2.Exhausted source)) ∧
      r.lines.2.Exhausted source) ∧
    (∀ filename,
      let r := CharReader.ofSource filename source
      (∀ calls, LineBuffer.StopsReading source 4096 (r.after calls).input ∧
        ((r.after calls).peek.1 = none → ∀ c, ((r.after calls).call c).2.Exhausted source)) ∧
      r.chars.2.Exhausted source) := by
  refine ⟨fun size ↦ ⟨LineBuffer.stopsReading_takeLines source size,
    LineBuffer.exhausted_lines source size⟩, fun filename ↦ ?_, fun filename ↦ ?_⟩
  · intro r
    refine ⟨fun calls ↦ ?_, LineReader.exhausted_lines filename source⟩
    have hstops := LineReader.stopsReading_after filename source calls
    exact ⟨hstops, LineReader.exhausted_call hstops⟩
  · intro r
    refine ⟨fun calls ↦ ?_, CharReader.exhausted_chars filename source⟩
    have hstops := CharReader.stopsReading_after filename source calls
    have hvalid : (r.after calls).input.Valid :=
      CharReader.interface.valid_after (r := r) (CharReader.valid_ofSource filename source) calls
    exact ⟨hstops, CharReader.exhausted_call hvalid hstops⟩

/-- After the last line, which ends at a failure: six reads, one of them interrupted, and the item
behind the failure is still there. -/
theorem reads_stop_at_end_scattered :
    let s := ((LineBuffer.ofSize LineBuffer.scattered 3).takeLines 1).2
    s.nextLine.1 = some ⟨[0x62], .eof⟩ ∧ s.nextLine.2.source.reads = 6 ∧
      s.nextLine.2.source.script = [.data [0x63]] ∧ s.nextLine.2.nextLine.1 = none := by
  intro s
  have hvalid := LineBuffer.valid_ofSize LineBuffer.scattered 3
  have htakes := LineBuffer.takes_takeLines hvalid 1
  have hahead := htakes.ofBytes_ahead
  rw [LineBuffer.takeLines_fst hvalid, LineBuffer.ahead_ofSize,
    LineBuffer.ofBytes_delivered_scattered] at hahead
  have hrest : [⟨[0x62], .eof⟩] = RawLine.ofBytes s.ahead := (List.cons.inj hahead).2
  have hlast := LineBuffer.takeLines_fst htakes.handsOut.valid 1
  rw [← hrest] at hlast
  change s.nextLine.1.toList ++ [] = _ at hlast
  have hline : s.nextLine.1 = some ⟨[0x62], .eof⟩ := by simpa using hlast
  obtain ⟨hread, hnone⟩ := (((reads_stop_at_end LineBuffer.scattered).1 3).1 1).exhausted_nextLine
    (fun l hl ↦ by
      obtain rfl := Option.some.inj (hline.symm.trans hl)
      rfl)
  refine ⟨hline, hread.reads_eq, ?_, congrArg Prod.fst (hnone 0)⟩
  rw [hread.later_eq]
  rfl

end Linemark
