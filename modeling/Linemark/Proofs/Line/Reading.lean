import Linemark.Proofs.Line.Conservation
import Linemark.Proofs.Stream.Reads

/-!
# When a line buffer reads

A line buffer reads when its store is used up and more bytes are needed, and at no other time. What
it has obtained from its source by then has been handed out, all of it. So a read can be dated by
the count of bytes: `Reads s k n t` says that `k` reads are made on the way from `s` to `t`, and
that no more than `n` bytes had been obtained before any of them.

The relation composes, and it is drawn up once for each operation of the buffer. The bytes of a line
up to its line break are handed out before the line break is looked at, and a line break that is LF
asks for nothing more (`readsFor_takeBreak`). The look ahead after CR is the one read that a line
can do without.
-/

namespace Linemark

namespace LineBuffer

/-- How many bytes have been obtained from the source. -/
def received (s : LineBuffer) : Nat := s.consumed + s.pending.length

/-- On the way from `s` to `t` the source is read `k` times. No read comes after one that ended the
input, and before each of them no more than `n` bytes had been obtained. -/
structure Reads (s : LineBuffer) (k n : Nat) (t : LineBuffer) : Prop where
  /-- The state can be reached. -/
  valid : t.Valid
  /-- The store keeps its size. -/
  size_eq : t.store.size = s.store.size
  /-- Reads are all that is done to the source. -/
  source_eq : t.source = s.source.afterReads s.store.size k
  /-- None is made at the end of the input. -/
  stops : StopsAtEnd s.ended (s.source.answers s.store.size k) t.ended
  /-- Bytes that were handed out stay handed out. -/
  consumed_le : s.consumed ≤ t.consumed
  /-- What the reads give has been obtained. -/
  received_eq : t.received = s.received + (s.source.obtained s.store.size k).length
  /-- No read is made too early. -/
  received_le : ∀ m < k, s.received + (s.source.obtained s.store.size m).length ≤ n

namespace Reads

variable {s t u : LineBuffer} {k l m n : Nat}

theorem refl (hs : s.Valid) (n : Nat) : Reads s 0 n s where
  valid := hs
  size_eq := rfl
  source_eq := rfl
  stops := .nil s.ended
  consumed_le := Nat.le_refl _
  received_eq := rfl
  received_le m hm := absurd hm (Nat.not_lt_zero m)

theorem mono (h : Reads s k m t) (hle : m ≤ n) : Reads s k n t :=
  { h with received_le := fun i hi ↦ Nat.le_trans (h.received_le i hi) hle }

theorem trans (h : Reads s k n t) (h' : Reads t l n u) : Reads s (k + l) n u where
  valid := h'.valid
  size_eq := h'.size_eq.trans h.size_eq
  source_eq := by rw [h'.source_eq, h.size_eq, h.source_eq, Source.afterReads_add]
  stops := by
    have hstops := h'.stops
    rw [h.size_eq, h.source_eq] at hstops
    rw [Source.answers_add]
    exact h.stops.append hstops
  consumed_le := Nat.le_trans h.consumed_le h'.consumed_le
  received_eq := by
    rw [h'.received_eq, h.received_eq, h.size_eq, h.source_eq, Source.obtained_add,
      List.length_append, Nat.add_assoc]
  received_le i hi := by
    by_cases hik : i < k
    · exact h.received_le i hik
    · -- the read is one of those of the second part
      obtain ⟨j, rfl⟩ := Nat.exists_eq_add_of_le (Nat.le_of_not_lt hik)
      have hle := h'.received_le j (by omega)
      rw [h.received_eq, h.size_eq, h.source_eq] at hle
      rw [Source.obtained_add, List.length_append]
      omega

end Reads

/-! ## The operations -/

section

variable {s t : LineBuffer} {k n : Nat}

/-- Bytes are neither lost nor made up, so it is enough to look at the source. -/
theorem reads_of_handsOut {bs : Bytes} (h : HandsOut s bs t)
    (hsource : t.source = s.source.afterReads s.store.size k)
    (hstops : StopsAtEnd s.ended (s.source.answers s.store.size k) t.ended)
    (hle : ∀ m < k, s.received + (s.source.obtained s.store.size m).length ≤ n) :
    Reads s k n t where
  valid := h.valid
  size_eq := h.size_eq
  source_eq := hsource
  stops := hstops
  consumed_le := by
    rw [h.consumed_eq]
    exact Nat.le_add_right _ _
  received_eq := by
    have hheld := congrArg List.length h.held_eq
    rw [held, held, s.source.remaining_eq_obtained_append s.store.size k, ← hsource] at hheld
    simp only [List.length_append] at hheld
    have hconsumed := h.consumed_eq
    rw [received, received]
    omega
  received_le := hle

private theorem reads_consume {i : Nat} (hs : s.Valid) (h : s.pos + i ≤ s.stop) (n : Nat) :
    Reads s 0 n (s.consume i) :=
  reads_of_handsOut (handsOut_consume hs h) rfl (.nil s.ended)
    fun m hm ↦ absurd hm (Nat.not_lt_zero m)

/-- A refill reads when all that has been obtained has been handed out. -/
theorem reads_of_refill {full : Bool} (hs : s.Valid) (hge : ¬s.pos < s.stop)
    (h : s.refill = (full, t)) : ∃ k, Reads s k s.consumed t := by
  have hused := hs.pos_eq_stop hge
  have hout := (refill_spec hs hused).1
  obtain rfl : s.refill.2 = t := congrArg Prod.snd h
  by_cases hended : s.ended = true
  · refine ⟨0, ?_⟩
    rw [refill, if_pos hended]
    exact .refl hs s.consumed
  · obtain ⟨n, d, hfetch, hanswers, hanswer, hd⟩ := s.source.exists_fetch_eq s.store.size
    have hstart : s.ended = false := Bool.eq_false_iff.mpr hended
    have hnext : s.refill.2.source = s.source.afterReads s.store.size (n + 1) ∧
        s.refill.2.ended = d.endsInput := by
      rw [d.endsInput_eq hd, refill, if_neg hended, hfetch]
      cases d.content with
      | nil => exact ⟨rfl, rfl⟩
      | cons b bs => exact ⟨rfl, hstart⟩
    refine ⟨n + 1, reads_of_handsOut hout hnext.1 ?_ ?_⟩
    · rw [hstart, hnext.2, Source.answers_add, hanswers, ← hanswer]
      exact .replicate_interrupted n _
    · -- the reads before the last one were interrupted and gave nothing
      intro m hm
      have hnone : s.source.obtained s.store.size m = [] := by
        obtain ⟨rest, rfl⟩ := Nat.exists_eq_add_of_le (Nat.le_of_lt_succ hm)
        have hall : s.source.obtained s.store.size (m + rest) = [] := by
          rw [Source.obtained, hanswers]
          simp [Delivery.content]
        rw [Source.obtained_add] at hall
        exact (List.append_eq_nil_iff.mp hall).1
      rw [hnone, received, pending_eq_nil hused]
      exact Nat.le_refl _

private theorem reads_nextIsLineFeed (hs : s.Valid) :
    ∃ k, Reads s k s.consumed s.nextIsLineFeed.2 := by
  fun_cases nextIsLineFeed s with
  | case1 hlt => exact ⟨0, .refl hs s.consumed⟩
  | case2 hge t hr => exact reads_of_refill hs hge hr
  | case3 hge t hr => exact reads_of_refill hs hge hr

end

/-! ## Lines -/

/-- A line was looked for, and what there is was found with reads that were needed for it. -/
structure ReadsFor (s : LineBuffer) (line : Option RawLine) (k n : Nat) (t : LineBuffer) : Prop
    extends Reads s k n t where
  /-- The bytes handed out before have been obtained. -/
  consumed_le_bound : s.consumed ≤ n
  /-- There was no read beyond the line. -/
  bound_le_consumed : n ≤ t.consumed
  /-- When the LF had come there was no read at all. -/
  bound_lt_consumed : ∀ l ∈ line, l.terminator = .lf ∨ l.terminator = .crlf → n < t.consumed
  /-- Where no line break was found the input has ended. -/
  ended_of_eof : (∀ l ∈ line, l.terminator = .eof) → t.ended = true

private theorem ReadsFor.of_reads {s t u : LineBuffer} {line : Option RawLine} {j k n : Nat}
    (h : Reads s j s.consumed t) (ht : ReadsFor t line k n u) : ReadsFor s line (j + k) n u where
  toReads := (h.mono (Nat.le_trans h.consumed_le ht.consumed_le_bound)).trans ht.toReads
  consumed_le_bound := Nat.le_trans h.consumed_le ht.consumed_le_bound
  bound_le_consumed := ht.bound_le_consumed
  bound_lt_consumed := ht.bound_lt_consumed
  ended_of_eof := ht.ended_of_eof

/-- A line break is looked behind if it is CR, and LF is not. -/
theorem readsFor_takeBreak {s : LineBuffer} (hs : s.Valid) (h : s.pos < s.stop) (text : Bytes) :
    ∃ k n, ReadsFor s (some ⟨text, s.takeBreak.1⟩) k n s.takeBreak.2 := by
  have hone (n : Nat) := reads_consume (i := 1) hs h n
  rw [takeBreak]
  by_cases hlf : s.front = lineFeed
  · rw [if_pos (by simpa using hlf)]
    exact ⟨0, s.consumed, hone s.consumed, Nat.le_refl _, Nat.le_add_right _ _,
      fun _ _ _ ↦ Nat.lt_succ_self _, by simp⟩
  · rw [if_neg (by simpa using hlf)]
    obtain ⟨k, hlook⟩ := reads_nextIsLineFeed (hone 0).valid
    have hnext := (nextIsLineFeed_spec (hone 0).valid).2
    have hcr := (hone _).trans hlook
    rcases hn : (s.consume 1).nextIsLineFeed with ⟨_ | _, t⟩
    · rw [hn] at hcr hlook
      exact ⟨_, _, hcr, Nat.le_succ _, hlook.consumed_le, by simp, by simp⟩
    · -- the LF that was found is handed out on its own
      rw [hn] at hcr hnext hlook
      have hle : s.consumed + 1 ≤ t.consumed := hlook.consumed_le
      obtain ⟨hlt, -⟩ : t.pos < t.stop ∧ t.front = lineFeed := by simpa using hnext
      have hlast := reads_consume (i := 1) hcr.valid hlt (s.consume 1).consumed
      exact ⟨_, _, hcr.trans hlast, Nat.le_succ _, Nat.le_succ_of_le hle,
        fun _ _ _ ↦ Nat.lt_succ_of_le hle, by simp⟩

/-- Taking text is handing out the bytes up to the first line break in the store, and the line break
if there is one. -/
theorem takeText_eq {s : LineBuffer} (hs : s.Valid) (text : Array UInt8) :
    ∃ more, more.toList = text.toList ++ s.run ∧ s.takeText text =
      if (s.consume s.run.length).pos < s.stop then
        .finished (some ⟨more.toList, (s.consume s.run.length).takeBreak.1⟩)
          (s.consume s.run.length).takeBreak.2
      else .unfinished more (s.consume s.run.length) := by
  obtain ⟨hindex, htext⟩ := Prod.mk.inj (gather_eq text hs.pos_le_stop hs.stop_le_size)
  change (gather s.store s.stop s.pos text).1 = s.pos + s.run.length at hindex
  refine ⟨(gather s.store s.stop s.pos text).2, htext, ?_⟩
  rw [takeText]
  simp only [hindex, Nat.add_sub_cancel_left]
  rfl

private theorem reads_run {s : LineBuffer} (hs : s.Valid) (n : Nat) :
    Reads s 0 n (s.consume s.run.length) :=
  reads_of_handsOut (handsOut_run hs) rfl (.nil s.ended) fun m hm ↦ absurd hm (Nat.not_lt_zero m)

private theorem readsFor_of_takeText {s next : LineBuffer} {text : Array UInt8}
    {line : Option RawLine} (hs : s.Valid) (h : s.takeText text = .finished line next) :
    ∃ k n, ReadsFor s line k n next := by
  obtain ⟨more, -, htake⟩ := takeText_eq hs text
  rw [htake] at h
  split at h
  next hlt =>
    obtain ⟨rfl, rfl⟩ := Turn.finished.inj h
    have hrun := reads_run hs s.consumed
    obtain ⟨k, n, hbreak⟩ := readsFor_takeBreak hrun.valid hlt more.toList
    exact ⟨_, _, .of_reads hrun hbreak⟩
  next => cases h

private theorem reads_of_takeText {s next : LineBuffer} {text more : Array UInt8} (hs : s.Valid)
    (h : s.takeText text = .unfinished more next) (n : Nat) : Reads s 0 n next := by
  obtain ⟨more', -, htake⟩ := takeText_eq hs text
  rw [htake] at h
  split at h
  next => cases h
  next =>
    obtain ⟨-, rfl⟩ := Turn.unfinished.inj h
    exact reads_run hs n

private theorem readsFor_of_turn {s next : LineBuffer} {text : Array UInt8} {line : Option RawLine}
    (hs : s.Valid) (h : s.turn text = .finished line next) : ∃ k n, ReadsFor s line k n next := by
  fun_cases turn s text with
  | case1 hlt => exact readsFor_of_takeText hs (by simpa [turn, hlt] using h)
  | case2 hge t hr =>
    obtain ⟨j, hj⟩ := reads_of_refill hs hge hr
    have htake : t.takeText text = .finished line next := by simpa [turn, hge, hr] using h
    obtain ⟨k, n, htext⟩ := readsFor_of_takeText hj.valid htake
    exact ⟨_, _, .of_reads hj htext⟩
  | case3 hge t hr =>
    obtain ⟨k, hk⟩ := reads_of_refill hs hge hr
    have hended := ended_of_refill_eq_false hr
    simp only [turn, hge, if_false, hr, Turn.finished.injEq] at h
    obtain ⟨rfl, rfl⟩ := h
    refine ⟨k, _, hk, Nat.le_refl _, hk.consumed_le, fun l hl hbreak ↦ ?_, fun _ ↦ hended⟩
    -- the rest of the text is the last line
    split at hl
    · cases hl
    · obtain rfl := Option.some.inj hl
      simp at hbreak

private theorem reads_of_turn {s next : LineBuffer} {text more : Array UInt8} (hs : s.Valid)
    (h : s.turn text = .unfinished more next) : ∃ k, Reads s k s.consumed next := by
  fun_cases turn s text with
  | case1 hlt => exact ⟨0, reads_of_takeText hs (by simpa [turn, hlt] using h) s.consumed⟩
  | case2 hge t hr =>
    obtain ⟨j, hj⟩ := reads_of_refill hs hge hr
    have htake : t.takeText text = .unfinished more next := by simpa [turn, hge, hr] using h
    exact ⟨_, hj.trans (reads_of_takeText hj.valid htake s.consumed)⟩
  | case3 hge t hr => simp [turn, hge, hr] at h

/-- The line loop reads when all that had been obtained was handed out, and stops reading once
the line is found. -/
theorem readsFor_nextLineFrom {s : LineBuffer} (hs : s.Valid) (text : Array UInt8) :
    ∃ k n, ReadsFor s (s.nextLineFrom text).1 k n (s.nextLineFrom text).2 := by
  fun_induction nextLineFrom s text with
  | case1 s text line next hturn => exact readsFor_of_turn hs hturn
  | case2 s text more next hturn ih =>
    obtain ⟨j, hj⟩ := reads_of_turn hs hturn
    obtain ⟨k, n, hrest⟩ := ih hj.valid
    exact ⟨_, _, .of_reads hj hrest⟩

/-- **One call** reads for its line. -/
theorem readsFor_nextLine {s : LineBuffer} (hs : s.Valid) :
    ∃ k n, ReadsFor s s.nextLine.1 k n s.nextLine.2 :=
  readsFor_nextLineFrom hs #[]

/-- Any number of calls read for their lines, and no further. -/
theorem reads_takeLines {s : LineBuffer} (hs : s.Valid) (n : Nat) :
    ∃ k, Reads s k (s.takeLines n).2.consumed (s.takeLines n).2 := by
  induction n generalizing s with
  | zero => exact ⟨0, .refl hs s.consumed⟩
  | succ n ih =>
    obtain ⟨j, m, hfirst⟩ := readsFor_nextLine hs
    obtain ⟨k, hrest⟩ := ih hfirst.valid
    have hle : m ≤ (s.nextLine.2.takeLines n).2.consumed :=
      Nat.le_trans hfirst.bound_le_consumed hrest.consumed_le
    exact ⟨_, (hfirst.toReads.mono hle).trans hrest⟩

section

variable {source : Source} {size k n : Nat} {s : LineBuffer}

theorem Reads.source_eq_afterReads (h : Reads (ofSize source size) k n s) :
    s.source = source.afterReads (max size 1) k := by
  rw [h.source_eq, size_store_ofSize]
  rfl

theorem Reads.reads_eq (h : Reads (ofSize source size) k n s) :
    s.source.reads = source.reads + k := by
  rw [h.source_eq_afterReads, Source.reads_afterReads]

theorem Reads.stopsAtEnd (h : Reads (ofSize source size) k n s) :
    StopsAtEnd false (source.answers (max size 1) k) s.ended := by
  have hstops := h.stops
  rwa [size_store_ofSize] at hstops

private theorem Reads.received_eq_obtained (h : Reads (ofSize source size) k n s) :
    s.received = (source.obtained (max size 1) k).length := by
  rw [h.received_eq, size_store_ofSize, received, pending_ofSize]
  exact Nat.zero_add _

private theorem Reads.obtained_le (h : Reads (ofSize source size) k n s) {i : Nat} (hi : i < k) :
    (source.obtained (max size 1) i).length ≤ n := by
  have hle := h.received_le i hi
  rw [size_store_ofSize, received, pending_ofSize] at hle
  exact Nat.le_trans (Nat.le_add_left _ _) hle

end

/-- **No read further than the line needs.** A call that reads for its line makes its last read when
no byte beyond the line has been obtained; and if the line ends with LF, its last byte has not been
obtained then. -/
theorem obtained_before_last_read {source : Source} {size n : Nat} {l : RawLine} {t : LineBuffer}
    (hline : ((ofSize source size).takeLines n).2.nextLine = (some l, t))
    (hread : ((ofSize source size).takeLines n).2.source.reads < t.source.reads) :
    let made := t.source.reads - source.reads
    let before := source.obtained (max size 1) (made - 1)
    t.source = source.afterReads (max size 1) made ∧
      before.length ≤ t.consumed ∧
      (l.terminator = .lf ∨ l.terminator = .crlf → before.length < t.consumed) ∧
      t.consumed ≤ (source.obtained (max size 1) made).length := by
  intro made before
  obtain ⟨j, hstart⟩ := reads_takeLines (valid_ofSize source size) n
  generalize ((ofSize source size).takeLines n).2 = s at hstart hline hread
  obtain ⟨k, m, hfor⟩ := readsFor_nextLine hstart.valid
  rw [hline] at hfor
  have hall := (hstart.mono hfor.consumed_le_bound).trans hfor.toReads
  have hmade : made = j + k := by
    rw [← Nat.add_sub_cancel_left (n := source.reads) (m := j + k), ← hall.reads_eq]
  have hlast : before.length ≤ m := by
    have hreads := hstart.reads_eq
    have hreads' := hall.reads_eq
    exact hall.obtained_le (by omega)
  refine ⟨?_, Nat.le_trans hlast hfor.bound_le_consumed, fun hbreak ↦ ?_, ?_⟩
  · rw [hmade, hall.source_eq_afterReads]
  · exact Nat.lt_of_le_of_lt hlast (hfor.bound_lt_consumed l rfl hbreak)
  · rw [hmade, ← hall.received_eq_obtained]
    exact Nat.le_add_right _ _

/-- The first line ends with an LF that comes in a read of its own, after an interrupted one. -/
theorem obtained_before_last_read_scattered :
    ∃ t, (ofSize scattered 0).nextLine = (some ⟨[0x61], .crlf⟩, t) ∧ 0 < t.source.reads ∧
      (scattered.obtained 1 (t.source.reads - 1)).length < 3 := by
  have hvalid := valid_ofSize scattered 0
  rcases hn : (ofSize scattered 0).nextLine with ⟨_ | l, t⟩
  · cases (spec_of_nextLine_eq_none hvalid hn).2
  · obtain ⟨hout, hlines⟩ := spec_of_nextLine_eq_some hvalid hn
    rw [ahead_ofSize, ofBytes_delivered_scattered] at hlines
    obtain ⟨rfl, -⟩ := List.cons.inj hlines
    have hconsumed : t.consumed = 3 := hout.consumed_eq
    -- bytes were handed out, so some have been obtained
    obtain ⟨k, m, hfor⟩ := readsFor_nextLine hvalid
    rw [hn] at hfor
    have hreads : t.source.reads = 0 + k := hfor.reads_eq
    have hpos : 0 < k := by
      rcases Nat.eq_zero_or_pos k with rfl | hk
      · have hnone : t.consumed + t.pending.length = 0 := hfor.received_eq_obtained
        omega
      · exact hk
    have hread : (ofSize scattered 0).source.reads < t.source.reads := by
      rw [hreads, Nat.zero_add]
      exact hpos
    refine ⟨t, rfl, hread, ?_⟩
    rw [← hconsumed]
    exact (obtained_before_last_read (n := 0) hn hread).2.2.1 (.inr rfl)

end LineBuffer

end Linemark
