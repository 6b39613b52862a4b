import Linemark.Proofs.Line.Reading
import Linemark.Proofs.Line.Window

/-!
# Indices in bounds

A line buffer is a window that does not look: over every script a window looks at each index before
it takes anything, finds nothing to report, and gives the lines that the line buffer gives
(`takeLines_window`). So no index of a line buffer is ever out of bounds, although its definitions
would have an answer for one that is.

That nothing is out of order along the way need not be proved again here, since a window has no
fault but a lack of steps. What remains is that it does not lack them. `LineBuffer.work` bounds the
turns of the line loop and the reads of one refill alike, so a window that is granted more steps
than the weight of its source comes to an end, call after call.
-/

namespace Linemark

private theorem Ends.of_eq_ok {α : Type} {P : α → Prop} {run : Except Fault α} {a : α}
    (h : Ends P run) (hrun : run = .ok a) : P a := by
  rw [hrun] at h
  exact h

theorem Source.fitsRoom_read : Window.FitsRoom Source.read := fun source n _ _ h ↦
  Nat.le_trans (Item.length_answer_le (read_eq_iff.mp h).1) (source.limit_le n)

namespace Source

variable {s next : Source} {size : Nat}

private theorem fetch_of_bytes {bs : Bytes} (h : s.read size = (.bytes bs, next)) :
    s.fetch size = (bs, next) := by
  rw [fetch]
  split <;> simp_all

private theorem fetch_of_interrupted (h : s.read size = (.failed .interrupted, next)) :
    s.fetch size = next.fetch size := by
  rw [fetch]
  split <;> simp_all

private theorem fetch_of_failed {kind : FailureKind} (h : s.read size = (.failed kind, next))
    (hkind : kind ≠ .interrupted) : s.fetch size = ([], next) := by
  rw [fetch]
  split <;> simp_all

end Source

private theorem Window.fetch_eq {w : Window Source} {size steps : Nat} (hw : w.InOrder size)
    (h : w.pos = w.stop) (hended : w.ended = false) (hsteps : w.source.weight < steps) :
    w.fetch Source.read size steps = .ok (match w.source.fetch w.store.size with
      | ([], source) => (false, { w with source, ended := true })
      | (b :: bs, source) =>
        (true, { w with source, store := overwrite w.store 0 (b :: bs), pos := 0,
                        stop := bs.length + 1 })) := by
  induction steps generalizing w with
  | zero => exact absurd hsteps (Nat.not_lt_zero _)
  | succ steps ih =>
    rw [fetch, demand_eq ⟨hw, h, hended⟩, ok_bind]
    split
    next hr => rw [Source.fetch_of_bytes hr]; rfl
    next hr => rw [Source.fetch_of_bytes hr]; rfl
    next source hr =>
      have := Source.weight_read_failed hr
      rw [Source.fetch_of_interrupted hr]
      exact ih (w := { w with source })
        ⟨hw.pos_le_stop, hw.stop_le_size, hw.size_eq, hw.size_pos, hw.used_up⟩ h hended
        (show source.weight < steps by omega)
    next hkind hr => rw [Source.fetch_of_failed hr (by simpa using hkind)]; rfl

namespace LineBuffer

/-- A line buffer as a window. -/
def window (s : LineBuffer) : Window Source :=
  { source := s.source, store := s.store, pos := s.pos, stop := s.stop, ended := s.ended,
    consumed := s.consumed }

private theorem valid_of_inOrder {s : LineBuffer} {size : Nat} (h : s.window.InOrder size) :
    s.Valid :=
  ⟨h.pos_le_stop, h.stop_le_size, h.size_pos, h.used_up⟩

/-! ## Refills -/

/-- Whether bytes wait. Reads if the store is used up. -/
def ready (s : LineBuffer) : Bool × LineBuffer := if s.pos < s.stop then (true, s) else s.refill

private theorem work_ready_le (s : LineBuffer) : s.ready.2.work ≤ s.work := by
  rw [ready]
  split
  next => exact Nat.le_refl s.work
  next => exact work_refill_le s

private theorem nextIsLineFeed_eq (s : LineBuffer) :
    s.nextIsLineFeed = (s.ready.1 && s.ready.2.front == lineFeed, s.ready.2) := by
  rw [nextIsLineFeed, ready]
  split
  next => rfl
  next => cases s.refill with | mk more next => cases more <;> rfl

private theorem turn_eq (s : LineBuffer) (text : Array UInt8) :
    s.turn text = if s.ready.1 then s.ready.2.takeText text
      else .finished (if text.isEmpty then none else some ⟨text.toList, .eof⟩) s.ready.2 := by
  rw [turn, ready]
  split
  next => rfl
  next => cases s.refill with | mk more next => cases more <;> rfl

variable {s : LineBuffer} {size steps : Nat}

private theorem refill_window (hs : s.window.InOrder size) (h : s.pos = s.stop)
    (hsteps : s.source.weight < steps) :
    s.window.refill Source.read size steps = .ok (s.refill.1, s.refill.2.window) := by
  rw [Window.refill, demand_eq hs, ok_bind, demand_eq (p := s.window.pos = s.window.stop) h,
    ok_bind, refill]
  by_cases hended : s.ended
  · rw [if_pos (show s.window.ended = true from hended), if_pos hended]
    rfl
  · rw [if_neg (show ¬s.window.ended = true from hended), if_neg hended,
      Window.fetch_eq hs h (Bool.eq_false_iff.mpr hended) hsteps,
      show s.window.source.fetch s.window.store.size = s.source.fetch s.store.size from rfl]
    rcases s.source.fetch s.store.size with ⟨_ | ⟨b, bs⟩, source⟩ <;> rfl

private theorem ready_window (hs : s.window.InOrder size) (hsteps : s.work < steps) :
    s.window.ready Source.read size steps = .ok (s.ready.1, s.ready.2.window) := by
  have hweight : s.source.weight < steps := Nat.lt_of_le_of_lt (Nat.le_add_right _ _) hsteps
  rw [Window.ready, ready]
  by_cases h : s.pos = s.stop
  · rw [if_pos (show s.window.pos = s.window.stop from h), if_neg (by omega),
      refill_window hs h hweight]
  · have hle : s.pos ≤ s.stop := hs.pos_le_stop
    rw [if_neg (show ¬s.window.pos = s.window.stop from h), if_pos (by omega)]
    rfl

private theorem inOrder_ready (hs : s.window.InOrder size) :
    s.ready.2.window.InOrder size ∧ (s.ready.1 = true → s.ready.2.pos < s.ready.2.stop) :=
  (Window.ends_ready Source.fitsRoom_read hs (s.work + 1)).of_eq_ok
    (ready_window hs (Nat.lt_succ_self _))

/-! ## Line breaks -/

private theorem consume_window {n : Nat} (hs : s.window.InOrder size) (h : s.pos + n ≤ s.stop) :
    s.window.consume size n = .ok (s.consume n).window := by
  rw [Window.consume, demand_eq hs, ok_bind, demand_eq (p := s.window.pos + n ≤ s.window.stop) h]
  rfl

private theorem inOrder_consume {n : Nat} (hs : s.window.InOrder size) (h : s.pos + n ≤ s.stop) :
    (s.consume n).window.InOrder size :=
  (Window.ends_consume hs h).of_eq_ok (consume_window hs h)

private theorem byteAt_front (h : s.pos < s.store.size) :
    byteAt s.store.toList s.pos = .ok s.front := by
  rw [byteAt_eq (by simpa using h)]
  simp [front, h]

private theorem nextIsLineFeed_window (hs : s.window.InOrder size) (hsteps : s.work < steps) :
    s.window.nextIsLineFeed Source.read size steps
      = .ok (s.nextIsLineFeed.1, s.nextIsLineFeed.2.window) := by
  obtain ⟨hready, hlt⟩ := inOrder_ready hs
  rw [Window.nextIsLineFeed, demand_eq hs, ok_bind, ready_window hs hsteps, ok_bind,
    nextIsLineFeed_eq]
  generalize s.ready = r at hready hlt ⊢
  obtain ⟨more, next⟩ := r
  cases more with
  | false => rfl
  | true =>
    have hpos : next.window.pos < next.window.stop := hlt rfl
    have hbyte : byteAt next.window.store.toList next.window.pos = .ok next.front :=
      byteAt_front (Nat.lt_of_lt_of_le hpos hready.stop_le_size)
    simp only [if_true, demand_eq hpos, ok_bind, hbyte]
    rfl

private theorem terminator_window (hs : s.window.InOrder size) (h : s.pos < s.stop)
    (hsteps : s.work < steps) :
    (s.consume 1).window.terminator Source.read size steps s.front
      = .ok (s.takeBreak.1, s.takeBreak.2.window) := by
  have hone := inOrder_consume hs (n := 1) h
  have hwork := work_consume_le s 1
  rw [Window.terminator, takeBreak]
  by_cases hlf : s.front == lineFeed
  · rw [if_pos hlf, if_pos hlf]
    rfl
  · obtain ⟨hnext, hlt⟩ := (Window.ends_nextIsLineFeed Source.fitsRoom_read hone steps).of_eq_ok
      (nextIsLineFeed_window hone (by omega))
    rw [if_neg hlf, if_neg hlf, nextIsLineFeed_window hone (by omega), ok_bind]
    generalize (s.consume 1).nextIsLineFeed = r at hnext hlt ⊢
    obtain ⟨isLineFeed, next⟩ := r
    cases isLineFeed with
    | false => rfl
    | true =>
      have hconsume := consume_window (s := next) (n := 1) hnext (hlt rfl)
      simp only [if_true, hconsume, ok_bind]
      rfl

/-! ## The line loop -/

private theorem findIdx?_pending (s : LineBuffer) :
    s.pending.findIdx? isBreak
      = if s.run.length < s.pending.length then some s.run.length else none := by
  have hrun : s.run.length = s.pending.findIdx isBreak := by
    simp [run, List.takeWhile_eq_take_findIdx_not, List.findIdx_le_length]
  rw [List.findIdx?_eq_guard_findIdx_lt, hrun]
  simp [Option.guard]

/-- A turn of the line loop and a scan of a window come to the same. -/
inductive Agrees : Turn → Bytes × Option Terminator × Window Source → Prop
  /-- A line is complete. -/
  | finished (text : Bytes) (terminator : Terminator) (next : LineBuffer) :
    Agrees (.finished (some ⟨text, terminator⟩) next) (text, some terminator, next.window)
  /-- There is more text. -/
  | unfinished (text : Array UInt8) (next : LineBuffer) :
    Agrees (.unfinished text next) (text.toList, none, next.window)

private theorem scan_window (hs : s.window.InOrder size) (h : s.pos < s.stop)
    (hsteps : s.work < steps) (text : Array UInt8) :
    ∃ r, s.window.scan Source.read size steps text.toList = .ok r ∧
      Agrees (s.takeText text) r := by
  have hvalid := valid_of_inOrder hs
  have hlength := length_pending hvalid
  have hne : s.pending ≠ [] := List.ne_nil_of_length_pos (by omega)
  have hwaiting : stretch s.window.store.toList s.window.pos s.window.stop = .ok s.pending :=
    stretch_eq hs.pos_le_stop hs.stop_le_size
  obtain ⟨more, hmore, htake⟩ := takeText_eq hvalid text
  rw [Window.scan, hwaiting, ok_bind, demand_eq hne, ok_bind, findIdx?_pending, htake]
  by_cases hbreak : s.run.length < s.pending.length
  · -- the line break is looked at after the run is handed out, and both are handed out at once
    have hpos : (s.consume s.run.length).pos < s.stop := by simp only [consume]; omega
    have hrun := inOrder_consume hs (n := s.run.length) (by omega)
    have hbyte : byteAt s.pending s.run.length = .ok (s.consume s.run.length).front := by
      rw [byteAt, ← List.head?_drop, ← pending_consume,
        pending_eq_cons (valid_of_inOrder hrun) hpos]
      rfl
    have hfront : stretch s.pending 0 s.run.length = .ok s.run := by
      rw [stretch_eq (Nat.zero_le _) (Nat.le_of_lt hbreak), List.drop_zero]
      exact congrArg _ (List.prefix_iff_eq_take.mp (List.takeWhile_prefix _)).symm
    have hboth : s.window.consume size (s.run.length + 1)
        = .ok ((s.consume s.run.length).consume 1).window :=
      (consume_window hs (by omega)).trans rfl
    have hwork := work_consume_le s s.run.length
    refine ⟨_, ?_, by rw [if_pos hpos]; exact .finished _ _ _⟩
    simp only [if_pos hbreak, hbyte, hfront, hboth, ok_bind,
      terminator_window hrun hpos (Nat.lt_of_le_of_lt hwork hsteps)]
    rw [hmore]
    rfl
  · have hpos : ¬(s.consume s.run.length).pos < s.stop := by simp only [consume]; omega
    have hall : s.run = s.pending :=
      (List.takeWhile_prefix _).eq_of_length_le (Nat.le_of_not_lt hbreak)
    have hconsume := consume_window hs (n := s.pending.length) (by omega)
    refine ⟨_, ?_, by rw [if_neg hpos]; exact .unfinished _ _⟩
    simp only [if_neg hbreak, hconsume, ok_bind]
    rw [hmore, hall]
    rfl

private theorem work_le_of_turn {next : LineBuffer} {text : Array UInt8} {line : Option RawLine}
    (h : s.turn text = .finished line next) : next.work ≤ s.work := by
  have hwork := work_ready_le s
  rw [turn_eq] at h
  split at h
  next => exact Nat.le_trans (Nat.le_of_lt (work_lt_of_takeText_finished h)) hwork
  next =>
    obtain ⟨-, rfl⟩ := Turn.finished.inj h
    exact hwork

private theorem work_nextLineFrom_le (s : LineBuffer) (text : Array UInt8) :
    (s.nextLineFrom text).2.work ≤ s.work := by
  fun_induction nextLineFrom s text with
  | case1 s text line next hturn => exact work_le_of_turn hturn
  | case2 s text more next hturn ih => exact Nat.le_trans ih (Nat.le_of_lt (work_lt_of_turn hturn))

private theorem nextLineFrom_eq (s : LineBuffer) (text : Array UInt8) :
    s.nextLineFrom text = match s.turn text with
      | .finished line next => (line, next)
      | .unfinished more next => next.nextLineFrom more := by
  rw [nextLineFrom]
  split <;> simp [*]

/-- The line loop. A turn that does not finish a line takes a step and lowers the work. -/
theorem nextLineFrom_window (hs : s.window.InOrder size) (hsteps : s.work < steps)
    (text : Array UInt8) :
    s.window.nextLineFrom Source.read size steps text.toList
      = .ok ((s.nextLineFrom text).1, (s.nextLineFrom text).2.window) := by
  induction steps generalizing s text with
  | zero => exact absurd hsteps (Nat.not_lt_zero _)
  | succ steps ih =>
    obtain ⟨hready, hlt⟩ := inOrder_ready hs
    have hwork := work_ready_le s
    rw [Window.nextLineFrom, demand_eq hs, ok_bind, ready_window hs hsteps, ok_bind,
      nextLineFrom_eq, turn_eq]
    generalize s.ready = r at hready hlt hwork ⊢
    obtain ⟨more, next⟩ := r
    cases more with
    | false =>
      rw [← Array.isEmpty_toList]
      rfl
    | true =>
      have hpos : next.pos < next.stop := hlt rfl
      obtain ⟨r, hscan, hagrees⟩ :=
        scan_window hready hpos (Nat.lt_of_le_of_lt hwork hsteps) text
      have horder := (Window.ends_scan Source.fitsRoom_read hready hpos _ _).of_eq_ok hscan
      simp only [if_true, hscan, ok_bind]
      generalize htake : next.takeText text = taken at hagrees ⊢
      cases hagrees with
      | finished text terminator last => rfl
      | unfinished more last =>
        have hless : last.work < next.work := work_lt_of_takeText hpos htake
        exact ih horder (by simp only at hwork; omega) more

/-- **Any number of calls.** A window that is granted enough steps does what a line buffer does. -/
theorem takeLines_window (hs : s.window.InOrder size) (hsteps : s.work < steps) (n : Nat) :
    s.window.takeLines Source.read size steps n
      = .ok ((s.takeLines n).1, (s.takeLines n).2.window) := by
  induction n generalizing s with
  | zero => rfl
  | succ n ih =>
    have hline := nextLineFrom_window hs hsteps #[]
    have horder := (Window.ends_nextLineFrom Source.fitsRoom_read hs _ _).of_eq_ok hline
    have hrest := ih horder (Nat.lt_of_le_of_lt (work_nextLineFrom_le s #[]) hsteps)
    rw [Window.takeLines, ← Array.toList_empty, hline, ok_bind]
    simp only [hrest, ok_bind]
    rfl

/-! ## The bounds -/

/-- **Indices stay in bounds.** A window looks at the order of its indices at the head of each loop
and at the start of each operation, and at each index that is used. Over any source whose reads
hand over no more than there is room for, with a store of any size and in any number of calls, it
finds nothing to report. Over a script it is a line buffer, and it comes to an end if it is granted
more steps than the weight of the script. -/
theorem indices_in_bounds :
    (∀ (σ : Type) (read : σ → Nat → Delivery × σ), Window.FitsRoom read →
      ∀ (source : σ) (size steps n : Nat),
        Ends (fun r ↦ r.2.InOrder (max size 1))
          ((Window.ofSize source size).takeLines read (max size 1) steps n)) ∧
      ∀ (source : Source) (size steps n : Nat), source.weight < steps →
        (Window.ofSize source size).takeLines Source.read (max size 1) steps n
          = .ok (((ofSize source size).takeLines n).1,
              ((ofSize source size).takeLines n).2.window) := by
  refine ⟨fun σ read hread source size steps n ↦ ?_, fun source size steps n hsteps ↦ ?_⟩
  · exact Window.ends_takeLines hread (Window.inOrder_ofSize source size) steps n
  · exact takeLines_window (s := ofSize source size) (Window.inOrder_ofSize source size) hsteps n

theorem indices_in_bounds_scattered :
    Window.FitsRoom Source.read ∧ scattered.weight < 20 ∧
      Ends (fun r ↦ r.2.InOrder 1)
        ((Window.ofSize scattered 0).takeLines Source.read 1 2 3) ∧
      (Window.ofSize scattered 0).takeLines Source.read 1 20 3
        = .ok (((ofSize scattered 0).takeLines 3).1, ((ofSize scattered 0).takeLines 3).2.window) :=
  ⟨Source.fitsRoom_read, by decide,
    indices_in_bounds.1 Source Source.read Source.fitsRoom_read scattered 0 2 3,
    indices_in_bounds.2 scattered 0 20 3 (by decide)⟩

end LineBuffer

end Linemark
