import Linemark.Line.Buffer
import Linemark.Proofs.Line.Splitting
import Linemark.Proofs.Stream.Delivery
import Mathlib.Data.Set.Function

/-!
# Line buffers

A line buffer gives the lines of what its source delivers, however the bytes are cut into reads.

## What is ahead

The state of a buffer is seen through two byte strings: `LineBuffer.ahead`, what waits in the store
and what the source will still deliver, and `LineBuffer.held`, what waits in the store and all that
is still in the script. A refill moves bytes from the source to the store and so changes neither.
What does change them is handing out bytes, and every operation of the buffer hands out some:
`HandsOut s bs next` says that `bs` is gone from the front of both, and that it has been counted.
The relation composes, so the account of a whole line is put together from those of its parts,
with no arithmetic on indices outside of the section on the store.

## One line

A turn of the line loop either completes a line or adds to the text that was gathered; `OfTurn`
says so case by case, and `nextLineFrom_spec` follows by induction over the turns. The lookahead
after CR needs no treatment of its own: whether LF follows is a question about what is ahead, and
the answer does not depend on whether the store had to be refilled to find out.
-/

namespace Linemark

/-! ## The store -/

private theorem toList_overwrite {store : Array UInt8} {i : Nat} {bs : Bytes}
    (h : i + bs.length ≤ store.size) :
    (overwrite store i bs).toList
      = store.toList.take i ++ bs ++ store.toList.drop (i + bs.length) := by
  induction bs generalizing store i with
  | nil => simp [overwrite]
  | cons b bs ih =>
    rw [List.length_cons] at h
    -- one byte is written; the hypothesis is about the store that has it, from the next index on
    have hi : i < store.toList.length := by
      rw [Array.length_toList]
      omega
    have hset : (store.setIfInBounds i b).toList
        = (store.toList.take i ++ [b]) ++ store.toList.drop (i + 1) := by
      rw [Array.toList_setIfInBounds, List.set_eq_take_append_cons_drop, if_pos hi]
      simp
    have hlen : (store.toList.take i ++ [b]).length = i + 1 := by simp; omega
    rw [overwrite, ih (by simp; omega), hset, List.take_left' hlen, ← hlen, List.drop_append,
      List.drop_of_length_le (by omega), hlen, List.drop_drop]
    simp [Nat.add_comm, Nat.add_left_comm]

private theorem drop_take_toList {store : Array UInt8} {stop i : Nat} (hi : i < stop)
    (hstop : stop ≤ store.size) :
    (store.toList.take stop).drop i
      = store.getD i 0 :: (store.toList.take stop).drop (i + 1) := by
  have hlen : i < (store.toList.take stop).length := by simp; omega
  rw [List.drop_eq_getElem_cons hlen, List.getElem_take, Array.getElem_toList,
    Array.getD_eq_getD_getElem?, Array.getElem?_eq_getElem (by omega), Option.getD_some]

theorem gather_eq {store : Array UInt8} {stop i : Nat} (text : Array UInt8) (hi : i ≤ stop)
    (hstop : stop ≤ store.size) :
    ((gather store stop i text).1, (gather store stop i text).2.toList)
      = (i + (((store.toList.take stop).drop i).takeWhile fun b ↦ !isBreak b).length,
        text.toList ++ ((store.toList.take stop).drop i).takeWhile fun b ↦ !isBreak b) := by
  fun_induction gather store stop i text with
  | case1 i text hlt byte hbreak =>
    have hbyte : isBreak (store.getD i 0) = true := hbreak
    rw [drop_take_toList hlt hstop, List.takeWhile_cons_of_neg (by rw [hbyte]; decide)]
    simp
  | case2 i text hlt byte hbreak ih =>
    have hbyte : isBreak (store.getD i 0) = false := Bool.eq_false_iff.mpr hbreak
    rw [drop_take_toList hlt hstop, List.takeWhile_cons_of_pos (by rw [hbyte]; decide), ih hlt]
    simp [byte, Nat.add_assoc, Nat.add_comm 1]
  | case3 i text hge =>
    rw [List.drop_of_length_le (by simp; omega)]
    simp

namespace LineBuffer

/-! ## States that can be reached -/

/-- The indices of a buffer lie in its store, and an input that has ended has been handed out. -/
structure Valid (s : LineBuffer) : Prop where
  /-- What waits in the store is a stretch of it. -/
  pos_le_stop : s.pos ≤ s.stop
  /-- The stretch lies in the store. -/
  stop_le_size : s.stop ≤ s.store.size
  /-- There is room to read into. -/
  size_pos : 0 < s.store.size
  /-- The end of the input is found only when the store is used up. -/
  used_up : s.ended = true → s.pos = s.stop

theorem Valid.pos_eq_stop {s : LineBuffer} (hs : s.Valid) (h : ¬s.pos < s.stop) : s.pos = s.stop :=
  Nat.le_antisymm hs.pos_le_stop (Nat.le_of_not_lt h)

theorem valid_ofSize (source : Source) (size : Nat) : (ofSize source size).Valid where
  pos_le_stop := Nat.le_refl 0
  stop_le_size := Nat.zero_le _
  size_pos := by simp [ofSize]
  used_up _ := rfl

/-- What the source will still deliver. A source that ended is not read again. -/
def undelivered (s : LineBuffer) : Bytes := if s.ended then [] else s.source.delivered

/-- The bytes that are still to be handed out. -/
def ahead (s : LineBuffer) : Bytes := s.pending ++ s.undelivered

/-- All bytes that have not been handed out, also those that never will be. -/
def held (s : LineBuffer) : Bytes := s.pending ++ s.source.remaining

theorem pending_ofSize (source : Source) (size : Nat) : (ofSize source size).pending = [] := by
  simp [pending, ofSize]

@[simp] theorem ahead_ofSize (source : Source) (size : Nat) :
    (ofSize source size).ahead = source.delivered := by
  rw [ahead, pending_ofSize, List.nil_append]
  rfl

theorem length_pending {s : LineBuffer} (hs : s.Valid) : s.pending.length = s.stop - s.pos := by
  have := hs.stop_le_size
  simp [pending, this]

theorem pending_eq_nil {s : LineBuffer} (h : s.pos = s.stop) : s.pending = [] := by
  rw [pending, h]
  exact List.drop_of_length_le (List.length_take_le _ _)

theorem pending_eq_cons {s : LineBuffer} (hs : s.Valid) (h : s.pos < s.stop) :
    s.pending = s.front :: (s.consume 1).pending :=
  drop_take_toList h hs.stop_le_size

theorem pending_consume (s : LineBuffer) (n : Nat) :
    (s.consume n).pending = s.pending.drop n := by
  rw [pending, pending, consume, List.drop_drop]

/-! ## Handing out -/

/-- Bytes are handed out on the way from one state to another: they are gone from what is ahead,
and they have been counted. -/
structure HandsOut (s : LineBuffer) (bs : Bytes) (next : LineBuffer) : Prop where
  /-- The bytes were the next ones. -/
  ahead_eq : s.ahead = bs ++ next.ahead
  /-- No byte is lost. -/
  held_eq : s.held = bs ++ next.held
  /-- They are counted. -/
  consumed_eq : next.consumed = s.consumed + bs.length
  /-- The store keeps its size. -/
  size_eq : next.store.size = s.store.size
  /-- The state can be reached. -/
  valid : next.Valid

theorem HandsOut.refl {s : LineBuffer} (hs : s.Valid) : HandsOut s [] s :=
  ⟨rfl, rfl, rfl, rfl, hs⟩

theorem HandsOut.trans {s t u : LineBuffer} {bs cs : Bytes} (h : HandsOut s bs t)
    (h' : HandsOut t cs u) : HandsOut s (bs ++ cs) u where
  ahead_eq := by rw [h.ahead_eq, h'.ahead_eq, List.append_assoc]
  held_eq := by rw [h.held_eq, h'.held_eq, List.append_assoc]
  consumed_eq := by rw [h'.consumed_eq, h.consumed_eq, List.length_append, Nat.add_assoc]
  size_eq := h'.size_eq.trans h.size_eq
  valid := h'.valid

theorem handsOut_consume {s : LineBuffer} {n : Nat} (hs : s.Valid) (h : s.pos + n ≤ s.stop) :
    HandsOut s (s.pending.take n) (s.consume n) where
  ahead_eq := by
    rw [ahead, ahead, pending_consume, ← List.append_assoc, List.take_append_drop]
    rfl
  held_eq := by
    rw [held, held, pending_consume, ← List.append_assoc, List.take_append_drop]
    rfl
  consumed_eq := by
    rw [List.length_take, length_pending hs, Nat.min_eq_left (by omega), consume]
  size_eq := rfl
  valid := ⟨h, hs.stop_le_size, hs.size_pos, fun hended ↦ by
    have := hs.used_up hended
    simp only [consume]
    omega⟩

private theorem handsOut_consume_one {s : LineBuffer} (hs : s.Valid) (h : s.pos < s.stop) :
    HandsOut s [s.front] (s.consume 1) := by
  have := handsOut_consume hs (n := 1) h
  rwa [pending_eq_cons hs h, List.take_succ_cons, List.take_zero] at this

/-! ## Refilling -/

private theorem handsOut_nil_of_used_up {s t : LineBuffer} (h : s.pos = s.stop)
    (hahead : s.undelivered = t.ahead) (hheld : s.source.remaining = t.held)
    (hconsumed : t.consumed = s.consumed) (hsize : t.store.size = s.store.size) (ht : t.Valid) :
    HandsOut s [] t where
  ahead_eq := by rw [ahead, pending_eq_nil h, List.nil_append, hahead, List.nil_append]
  held_eq := by rw [held, pending_eq_nil h, List.nil_append, hheld, List.nil_append]
  consumed_eq := hconsumed
  size_eq := hsize
  valid := ht

/-- A used up store is filled again, or nothing is ahead. Nothing is handed out either way. -/
theorem refill_spec {s : LineBuffer} (hs : s.Valid) (h : s.pos = s.stop) :
    HandsOut s [] s.refill.2 ∧
      if s.refill.1 then s.refill.2.pos < s.refill.2.stop else s.ahead = [] := by
  have hdelivered := s.source.delivered_fetch hs.size_pos
  have hremaining := s.source.remaining_fetch s.store.size
  have hlength := s.source.length_fetch_le s.store.size
  have hahead : s.ahead = s.undelivered := by rw [ahead, pending_eq_nil h, List.nil_append]
  fun_cases refill s with
  | case1 hended =>
    refine ⟨HandsOut.refl hs, ?_⟩
    simp [hahead, undelivered, hended]
  | case2 hended source hf =>
    rw [hf] at hdelivered hremaining
    -- an empty fetch: the input ends here, although there may be more in the script
    have hnil : s.undelivered = [] := by simpa [undelivered, hended] using hdelivered
    have hpending : pending { s with source, ended := true } = [] := pending_eq_nil h
    refine ⟨handsOut_nil_of_used_up h ?_ ?_ rfl rfl ?_, by simpa [hahead] using hnil⟩
    · rw [hnil, ahead, hpending]
      rfl
    · rw [held, hpending]
      exact hremaining
    · exact ⟨hs.pos_le_stop, hs.stop_le_size, hs.size_pos, fun _ ↦ h⟩
  | case3 hended b bs source hf =>
    rw [hf] at hdelivered hremaining hlength
    have hstore : (overwrite s.store 0 (b :: bs)).toList.take (bs.length + 1) = b :: bs := by
      rw [toList_overwrite (by simpa using hlength)]
      simp
    have hpending : pending { s with source, store := overwrite s.store 0 (b :: bs), pos := 0,
                                     stop := bs.length + 1 } = b :: bs := hstore
    refine ⟨handsOut_nil_of_used_up h ?_ ?_ rfl (size_overwrite _ _ _) ?_, Nat.succ_pos _⟩
    · rw [ahead, hpending]
      simpa [undelivered, hended] using hdelivered
    · rw [held, hpending]
      exact hremaining
    · refine ⟨Nat.zero_le _, ?_, ?_, fun hc ↦ absurd hc hended⟩
      · simpa using hlength
      · simpa using hs.size_pos

/-- Looking ahead. Whether LF comes next is a question about what is ahead. If it does, it is
in the store, and can be handed out. -/
theorem nextIsLineFeed_spec {s : LineBuffer} (hs : s.Valid) :
    HandsOut s [] s.nextIsLineFeed.2 ∧
      if s.nextIsLineFeed.1 then
        s.nextIsLineFeed.2.pos < s.nextIsLineFeed.2.stop ∧ s.nextIsLineFeed.2.front = lineFeed
      else s.ahead.head? ≠ some lineFeed := by
  -- where bytes wait in the store, the first of them is the first one ahead
  have hfront : ∀ t : LineBuffer, t.Valid → t.pos < t.stop → t.ahead.head? = some t.front := by
    intro t ht hlt
    rw [ahead, pending_eq_cons ht hlt, List.cons_append, List.head?_cons]
  fun_cases nextIsLineFeed s with
  | case1 hlt =>
    refine ⟨HandsOut.refl hs, ?_⟩
    rw [hfront s hs hlt]
    split
    next hlf => exact ⟨hlt, by simpa using hlf⟩
    next hlf => simpa using hlf
  | case2 hge t hr =>
    obtain ⟨hout, hnil⟩ := refill_spec hs (hs.pos_eq_stop hge)
    rw [hr] at hout hnil
    refine ⟨hout, ?_⟩
    have hahead : s.ahead = [] := by simpa using hnil
    simp [hahead]
  | case3 hge t hr =>
    obtain ⟨hout, hlt⟩ := refill_spec hs (hs.pos_eq_stop hge)
    rw [hr] at hout hlt
    refine ⟨hout, ?_⟩
    rw [hout.ahead_eq, List.nil_append, hfront t hout.valid hlt]
    split
    next hlf => exact ⟨hlt, by simpa using hlf⟩
    next hlf => simpa using hlf

/-- A terminator is handed out, and nothing that is ahead of it then would have changed it. -/
theorem takeBreak_spec {s : LineBuffer} (hs : s.Valid) (h : s.pos < s.stop)
    (hbreak : isBreak s.front = true) :
    HandsOut s s.takeBreak.1.bytes s.takeBreak.2 ∧ s.takeBreak.1 ≠ .eof ∧
      s.takeBreak.1.CanPrecede s.takeBreak.2.ahead := by
  have hone := handsOut_consume_one hs h
  obtain ⟨hlook, hnext⟩ := nextIsLineFeed_spec hone.valid
  rw [takeBreak]
  by_cases hlf : s.front = lineFeed
  · rw [if_pos (by simpa using hlf)]
    rw [hlf] at hone
    exact ⟨hone, by simp, by simp [Terminator.CanPrecede]⟩
  · -- after CR the lookahead hands out nothing, and an LF that it finds is handed out on its own
    have hcr : s.front = carriageReturn := (isBreak_iff.mp hbreak).resolve_left hlf
    rw [if_neg (by simpa using hlf)]
    rw [hcr] at hone
    have hcr := hone.trans hlook
    cases hn : (s.consume 1).nextIsLineFeed with
    | mk isLineFeed t =>
      rw [hn] at hcr hlook hnext
      cases isLineFeed with
      | true =>
        obtain ⟨hlt, hfront⟩ : t.pos < t.stop ∧ t.front = lineFeed := by simpa using hnext
        have hlast := handsOut_consume_one hcr.valid hlt
        rw [hfront] at hlast
        exact ⟨hcr.trans hlast, by simp, by simp [Terminator.CanPrecede]⟩
      | false =>
        refine ⟨hcr, by simp, by simp, fun _ ↦ ?_⟩
        rw [hlook.ahead_eq] at hnext
        simpa using hnext

/-! ## The line loop -/

/-- The bytes that wait in the store, up to the first line break. -/
def run (s : LineBuffer) : Bytes := s.pending.takeWhile fun b ↦ !isBreak b

private theorem unbroken_run (s : LineBuffer) : Unbroken s.run := unbroken_takeWhile s.pending

theorem handsOut_run {s : LineBuffer} (hs : s.Valid) :
    HandsOut s s.run (s.consume s.run.length) := by
  have hle : s.run.length ≤ s.pending.length := (List.takeWhile_prefix _).length_le
  have htake : s.pending.take s.run.length = s.run :=
    (List.prefix_iff_eq_take.mp (List.takeWhile_prefix _)).symm
  rw [length_pending hs] at hle
  have := hs.pos_le_stop
  simpa only [htake] using handsOut_consume hs (n := s.run.length) (by omega)

private theorem isBreak_front_consume_run {s : LineBuffer} (hs : s.Valid)
    (h : (s.consume s.run.length).pos < (s.consume s.run.length).stop) :
    isBreak (s.consume s.run.length).front = true := by
  have hdrop : (s.run ++ s.pending.dropWhile fun b ↦ !isBreak b).drop s.run.length
      = s.pending.dropWhile fun b ↦ !isBreak b := List.drop_left
  rw [run, List.takeWhile_append_dropWhile, ← run, ← pending_consume,
    pending_eq_cons (handsOut_run hs).valid h] at hdrop
  exact startsWithBreak_dropWhile s.pending _ (by rw [← hdrop]; rfl)

/-- A line is completed: its text begins with what had been gathered, the rest of it is handed
out, and nothing that is ahead then would have changed its terminator. -/
structure Completes (s : LineBuffer) (text : Bytes) (l : RawLine) (next : LineBuffer) : Prop where
  /-- What was missing is handed out. -/
  handsOut : ∃ bs, text ++ bs = l.bytes ∧ HandsOut s bs next
  /-- An input can have such a line. -/
  proper : l.Proper
  /-- The line ends here. -/
  canPrecede : l.terminator.CanPrecede next.ahead

/-- What a turn of the line loop can come to, with a text gathered before. -/
inductive OfTurn (s : LineBuffer) (text : Bytes) : Turn → Prop
  /-- The line is complete. -/
  | line {l : RawLine} {next : LineBuffer} (h : Completes s text l next) :
    OfTurn s text (.finished (some l) next)
  /-- There is no line. -/
  | nothing {next : LineBuffer} (htext : text = []) (hahead : s.ahead = [])
    (h : HandsOut s [] next) : OfTurn s text (.finished none next)
  /-- There is more text. -/
  | more {more : Array UInt8} {bs : Bytes} {next : LineBuffer} (hmore : more.toList = text ++ bs)
    (hbs : Unbroken bs) (h : HandsOut s bs next) : OfTurn s text (.unfinished more next)

private theorem ofTurn_takeText {s : LineBuffer} {text : Array UInt8} (hs : s.Valid)
    (htext : Unbroken text.toList) : OfTurn s text.toList (s.takeText text) := by
  have hrun := handsOut_run hs
  have hgather := gather_eq text hs.pos_le_stop hs.stop_le_size
  change _ = (s.pos + s.run.length, text.toList ++ s.run) at hgather
  rw [takeText]
  generalize gather s.store s.stop s.pos text = gathered at hgather ⊢
  obtain ⟨i, more⟩ := gathered
  obtain ⟨rfl, hmore⟩ : i = s.pos + s.run.length ∧ more.toList = text.toList ++ s.run := by
    simpa using hgather
  simp only [Nat.add_sub_cancel_left]
  split
  next hlt =>
    obtain ⟨hout, hne, hcan⟩ := takeBreak_spec hrun.valid hlt (isBreak_front_consume_run hs hlt)
    refine .line ⟨⟨_, ?_, hrun.trans hout⟩, ⟨?_, fun heof ↦ absurd heof hne⟩, hcan⟩
    · rw [RawLine.bytes, hmore, List.append_assoc]
    · rw [hmore]
      exact unbroken_append.mpr ⟨htext, s.unbroken_run⟩
  next hge => exact .more hmore s.unbroken_run hrun

private theorem OfTurn.of_handsOut_nil {s t : LineBuffer} {text : Bytes} {result : Turn}
    (h : HandsOut s [] t) (ht : OfTurn t text result) : OfTurn s text result := by
  cases ht with
  | line hl =>
    obtain ⟨⟨bs, hbs, hout⟩, hproper, hcan⟩ := hl
    exact .line ⟨⟨bs, hbs, h.trans hout⟩, hproper, hcan⟩
  | nothing htext hahead hout =>
    exact .nothing htext (by rw [h.ahead_eq, hahead]; rfl) (h.trans hout)
  | more hmore hbs hout => exact .more hmore hbs (h.trans hout)

/-- **One turn of the line loop.** -/
theorem ofTurn_turn {s : LineBuffer} {text : Array UInt8} (hs : s.Valid)
    (htext : Unbroken text.toList) : OfTurn s text.toList (s.turn text) := by
  fun_cases turn s text with
  | case1 hlt => exact ofTurn_takeText hs htext
  | case2 hge t hr =>
    obtain ⟨hout, -⟩ := refill_spec hs (hs.pos_eq_stop hge)
    rw [hr] at hout
    exact .of_handsOut_nil hout (ofTurn_takeText hout.valid htext)
  | case3 hge t hr =>
    obtain ⟨hout, hahead⟩ := refill_spec hs (hs.pos_eq_stop hge)
    rw [hr] at hout hahead
    have hnil : s.ahead = [] := by simpa using hahead
    by_cases hempty : text = #[]
    · subst hempty
      exact .nothing rfl hnil hout
    · -- the last line has no terminator, so nothing may be ahead of it
      rw [if_neg (by simpa using hempty)]
      refine .line ⟨⟨[], rfl, hout⟩, ⟨htext, fun _ ↦ by simpa using hempty⟩, fun _ ↦ ?_, by simp⟩
      rw [← hnil, hout.ahead_eq]
      rfl

private theorem nextLineFrom_spec {s : LineBuffer} (text : Array UInt8) (hs : s.Valid)
    (htext : Unbroken text.toList) :
    (∃ l next, s.nextLineFrom text = (some l, next) ∧ Completes s text.toList l next) ∨
      ∃ next, s.nextLineFrom text = (none, next) ∧ text = #[] ∧ s.ahead = [] ∧
        HandsOut s [] next := by
  fun_induction nextLineFrom s text with
  | case1 s text line next hturn =>
    have hof := ofTurn_turn hs htext
    rw [hturn] at hof
    cases hof with
    | line hl => exact .inl ⟨_, _, rfl, hl⟩
    | nothing hnil hahead hout => exact .inr ⟨_, rfl, by simpa using hnil, hahead, hout⟩
  | case2 s text more next hturn ih =>
    have hof := ofTurn_turn hs htext
    rw [hturn] at hof
    cases hof with
    | @more _ bs _ hmore hbs hout =>
      -- what was gathered stays unbroken, which is all that the next turn asks for
      have hunbroken : Unbroken more.toList := by
        rw [hmore]
        exact unbroken_append.mpr ⟨htext, hbs⟩
      rcases ih hout.valid hunbroken with ⟨l, last, hl, ⟨cs, hcs, hout'⟩, hproper, hcan⟩ |
        ⟨last, hl, hnil, hahead, hout'⟩
      · refine .inl ⟨l, last, hl, ⟨bs ++ cs, ?_, hout.trans hout'⟩, hproper, hcan⟩
        rw [← hcs, hmore, List.append_assoc]
      · -- nothing was gathered in the end, so this turn handed out nothing
        rw [hnil] at hmore
        obtain ⟨htext', rfl⟩ : text.toList = [] ∧ bs = [] := List.append_eq_nil_iff.mp hmore.symm
        refine .inr ⟨last, hl, by simpa using htext', ?_, hout.trans hout'⟩
        rw [hout.ahead_eq, hahead]
        rfl

/-- Taking a line. It is the first one of what is ahead, and what is ahead then is the rest. -/
theorem spec_of_nextLine_eq_some {s next : LineBuffer} {l : RawLine} (hs : s.Valid)
    (h : s.nextLine = (some l, next)) :
    HandsOut s l.bytes next ∧ RawLine.ofBytes s.ahead = l :: RawLine.ofBytes next.ahead := by
  rw [nextLine] at h
  rcases nextLineFrom_spec #[] hs unbroken_nil with ⟨l', next', hl, ⟨bs, hbs, hout⟩, hproper,
    hcan⟩ | ⟨next', hl, -⟩
  · obtain ⟨rfl, rfl⟩ : l' = l ∧ next' = next := by simpa [hl] using h
    obtain rfl : bs = l'.bytes := hbs
    refine ⟨hout, ?_⟩
    rw [hout.ahead_eq, RawLine.ofBytes_bytes_append hproper.unbroken hcan hproper.bytes_ne_nil]
  · simp [hl] at h

theorem spec_of_nextLine_eq_none {s next : LineBuffer} (hs : s.Valid)
    (h : s.nextLine = (none, next)) : HandsOut s [] next ∧ s.ahead = [] := by
  rw [nextLine] at h
  rcases nextLineFrom_spec #[] hs unbroken_nil with ⟨l, next', hl, -⟩ | ⟨next', hl, -, hahead, hout⟩
  · simp [hl] at h
  · obtain rfl : next' = next := by simpa [hl] using h
    exact ⟨hout, hahead⟩

/-! ## The end of the input -/

theorem ended_of_refill_eq_false {s t : LineBuffer} (h : s.refill = (false, t)) :
    t.ended = true := by
  fun_cases refill s with
  | case1 hended =>
    obtain rfl : s = t := by simpa [refill, hended] using h
    exact hended
  | case2 hended source hf =>
    rw [refill, if_neg hended, hf] at h
    rw [← (Prod.mk.inj h).2]
  | case3 hended b bs source hf => simp [refill, hended, hf] at h

private theorem takeText_ne_finished_none (s next : LineBuffer) (text : Array UInt8) :
    s.takeText text ≠ .finished none next := by
  simp only [takeText]
  split <;> simp

theorem ended_of_nextLine_eq_none {s t : LineBuffer} (h : s.nextLine = (none, t)) :
    t.ended = true := by
  rw [nextLine] at h
  generalize (#[] : Array UInt8) = text at h
  fun_induction nextLineFrom s text with
  | case1 s text line next hturn =>
    obtain ⟨rfl, rfl⟩ : line = none ∧ next = t := by simpa using h
    fun_cases turn s text with
    | case1 hlt =>
      rw [turn, if_pos hlt] at hturn
      exact absurd hturn (takeText_ne_finished_none s next text)
    | case2 hge full hr =>
      simp only [turn, hge, if_false, hr] at hturn
      exact absurd hturn (takeText_ne_finished_none full next text)
    | case3 hge empty hr =>
      simp only [turn, hge, if_false, hr, Turn.finished.injEq] at hturn
      rw [← hturn.2]
      exact ended_of_refill_eq_false hr
  | case2 s text more next hturn ih => exact ih h

/-- The end is permanent. A buffer whose input has ended gives no line and stays as it is. -/
theorem nextLine_of_ended {s : LineBuffer} (hs : s.Valid) (h : s.ended = true) :
    s.nextLine = (none, s) := by
  have hge : ¬s.pos < s.stop := by
    rw [hs.used_up h]
    exact Nat.lt_irrefl s.stop
  have hturn : s.turn #[] = .finished none s := by
    rw [turn, if_neg hge, refill, if_pos h]
    rfl
  rw [nextLine, nextLineFrom]
  split
  next line next ht =>
    obtain ⟨rfl, rfl⟩ : none = line ∧ s = next := by simpa [hturn] using ht
    rfl
  next more next ht => simp [hturn] at ht

/-! ## All lines -/

theorem foldLines_fst {α : Type} (f : α → RawLine → α) (init : α) {s : LineBuffer}
    (hs : s.Valid) : (s.foldLines f init).1 = (RawLine.ofBytes s.ahead).foldl f init := by
  fun_induction foldLines f init s with
  | case1 init s next hn =>
    rw [(spec_of_nextLine_eq_none hs hn).2, RawLine.ofBytes_nil, List.foldl_nil]
  | case2 init s line next hn ih =>
    obtain ⟨hout, hlines⟩ := spec_of_nextLine_eq_some hs hn
    rw [ih hout.valid, hlines, List.foldl_cons]

theorem lines_fst {s : LineBuffer} (hs : s.Valid) : s.lines.1 = RawLine.ofBytes s.ahead := by
  change (s.foldLines Array.push #[]).1.toList = RawLine.ofBytes s.ahead
  rw [foldLines_fst Array.push #[] hs]
  simp

theorem lines_ofSize_fst (source : Source) (size : Nat) :
    (ofSize source size).lines.1 = RawLine.ofBytes source.delivered := by
  rw [lines_fst (valid_ofSize source size), ahead_ofSize]

/-- A source with CR and LF in two items, an interruption between them, and bytes behind a
failure. -/
def scattered : Source :=
  { script := [.data [0x61, 0x0D], .failure .interrupted, .data [], .data [0x0A, 0x62],
      .failure .timedOut, .data [0x63]]
    step := some ⟨1, Nat.one_pos⟩ }

theorem ofBytes_delivered_scattered :
    RawLine.ofBytes scattered.delivered = [⟨[0x61], .crlf⟩, ⟨[0x62], .eof⟩] := by
  change RawLine.ofBytes (RawLine.join [⟨[0x61], .crlf⟩, ⟨[0x62], .eof⟩]) = _
  exact RawLine.ofBytes_join (by decide)

/-- **A buffer gives the lines of what its source delivers.** Neither the size of the store nor
the way in which the source hands over the bytes has any influence on them. -/
theorem lines_eq_ofBytes_delivered (source : Source) (size : Nat) :
    (ofSize source size).lines.1 = RawLine.ofBytes source.delivered ∧
      ∀ (other : Source) (otherSize : Nat), other.delivered = source.delivered →
        (ofSize other otherSize).lines.1 = (ofSize source size).lines.1 := by
  refine ⟨lines_ofSize_fst source size, fun other otherSize h ↦ ?_⟩
  rw [lines_ofSize_fst, lines_ofSize_fst, h]

theorem lines_eq_ofBytes_delivered_scattered :
    scattered.delivered = (Source.ofBytes [0x61, 0x0D, 0x0A, 0x62]).delivered ∧
      (ofSize scattered 0).lines.1 = (ofSize (.ofBytes [0x61, 0x0D, 0x0A, 0x62]) 4096).lines.1 :=
  ⟨rfl, (lines_eq_ofBytes_delivered (.ofBytes [0x61, 0x0D, 0x0A, 0x62]) 4096).2 scattered 0 rfl⟩

/-- **Splitting is a bijection** from byte strings to well-formed lists of lines, and joining is its
inverse. -/
theorem lines_bijOn (size : Nat) :
    (∀ source : Source, RawLine.join (ofSize source size).lines.1 = source.delivered) ∧
      (∀ source : Source, RawLine.WellFormed (ofSize source size).lines.1) ∧
      (∀ ls : List RawLine, RawLine.WellFormed ls → ∀ source : Source,
        source.delivered = RawLine.join ls → (ofSize source size).lines.1 = ls) ∧
      Set.BijOn (fun input : Bytes ↦ (ofSize (.ofBytes input) size).lines.1) Set.univ
        {ls | RawLine.WellFormed ls} := by
  have hjoin : ∀ source : Source, RawLine.join (ofSize source size).lines.1 = source.delivered :=
    fun source ↦ by rw [lines_ofSize_fst, RawLine.join_ofBytes]
  have hwell : ∀ source : Source, RawLine.WellFormed (ofSize source size).lines.1 :=
    fun source ↦ by
      rw [lines_ofSize_fst]
      exact RawLine.wellFormed_ofBytes source.delivered
  have hback : ∀ ls : List RawLine, RawLine.WellFormed ls → ∀ source : Source,
      source.delivered = RawLine.join ls → (ofSize source size).lines.1 = ls := by
    intro ls hls source hsource
    rw [lines_ofSize_fst, hsource, RawLine.ofBytes_join hls]
  refine ⟨hjoin, hwell, hback, fun input _ ↦ hwell (.ofBytes input), ?_, ?_⟩
  · intro input _ input' _ heq
    have hjoined : RawLine.join (ofSize (.ofBytes input) size).lines.1
        = RawLine.join (ofSize (.ofBytes input') size).lines.1 := congrArg RawLine.join heq
    rwa [hjoin, hjoin, Source.delivered_ofBytes, Source.delivered_ofBytes] at hjoined
  · intro ls hls
    exact ⟨RawLine.join ls, Set.mem_univ _,
      hback ls hls (.ofBytes (RawLine.join ls)) (Source.delivered_ofBytes _)⟩

theorem lines_bijOn_scattered :
    RawLine.WellFormed [⟨[0x61], .crlf⟩, ⟨[0x62], .eof⟩] ∧
      scattered.delivered = RawLine.join [⟨[0x61], .crlf⟩, ⟨[0x62], .eof⟩] ∧
      (ofSize scattered 3).lines.1 = [⟨[0x61], .crlf⟩, ⟨[0x62], .eof⟩] :=
  ⟨by decide, rfl, (lines_bijOn 3).2.2.1 _ (by decide) scattered rfl⟩

end LineBuffer

end Linemark
