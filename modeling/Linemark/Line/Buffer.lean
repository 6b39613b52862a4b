import Linemark.Stream.Source
import Linemark.Line.Raw

/-!
# Line buffer

A line buffer stands between a source and those who want its lines. It reads into a store of fixed
size, hands the store out from one end to the other, and reads again only when the store is used
up; so a line may be gathered over many reads, and a CR at the end of the store is followed by one
more read that tells CR from CR LF. That is the only look ahead: after LF nothing is read.

A read that hands over nothing or fails ends the input for good, and the source is not read
again.

## Termination

`LineBuffer.work` counts the bytes that wait in the store and the weight of the source. Every turn
of the line loop that does not finish a line lowers it (`work_lt_of_turn`), and so does every line
that is handed out (`work_lt_of_nextLine`); the first bounds the search for one line, the second
bounds taking all lines.
-/

namespace Linemark

/-- A source whose lines are taken one by one. The bytes at indices `pos` up to `stop` of the store
have been read and wait to be handed out. -/
structure LineBuffer where
  /-- Where bytes come from. -/
  source : Source
  /-- The space that bytes are read into. -/
  store : Array UInt8
  /-- The index of the next byte to hand out. -/
  pos : Nat
  /-- The index after the last byte that was read. -/
  stop : Nat
  /-- The input has ended. -/
  ended : Bool
  /-- How many bytes have been handed out, terminators included. -/
  consumed : Nat
  deriving Repr

/-! ## The store -/

/-- Writes bytes over an array, starting at an index. -/
def overwrite (store : Array UInt8) (i : Nat) : Bytes → Array UInt8
  | [] => store
  | b :: bs => overwrite (store.setIfInBounds i b) (i + 1) bs

@[simp] theorem size_overwrite (store : Array UInt8) (i : Nat) (bs : Bytes) :
    (overwrite store i bs).size = store.size := by
  induction bs generalizing store i with
  | nil => rfl
  | cons b bs ih => simp [overwrite, ih]

/-- Gathers bytes of a store from an index on, up to the first line break before `stop`. Gives the
index of that line break, or `stop` if there is none, and the text with the bytes before it. -/
def gather (store : Array UInt8) (stop i : Nat) (text : Array UInt8) : Nat × Array UInt8 :=
  if i < stop then
    let byte := store.getD i 0
    if isBreak byte then (i, text) else gather store stop (i + 1) (text.push byte)
  else (i, text)
termination_by stop - i

private theorem le_fst_gather (store : Array UInt8) (stop i : Nat) (text : Array UInt8) :
    i ≤ (gather store stop i text).1 := by
  fun_induction gather store stop i text with
  | case1 => exact Nat.le_refl _
  | case2 i text _ _ _ ih => omega
  | case3 => exact Nat.le_refl _

namespace LineBuffer

/-- The size of the store that is used where none is asked for. -/
def defaultSize : Nat := 4096

/-- A line buffer whose store has the given size, or one byte if the size is zero. -/
def ofSize (source : Source) (size : Nat) : LineBuffer :=
  { source, store := Array.replicate (max size 1) 0, pos := 0, stop := 0, ended := false,
    consumed := 0 }

/-- A line buffer whose store has the default size. -/
def ofSource (source : Source) : LineBuffer := ofSize source defaultSize

/-- The bytes that have been read and not yet been handed out. -/
def pending (s : LineBuffer) : Bytes := (s.store.toList.take s.stop).drop s.pos

/-- The next byte to hand out. -/
def front (s : LineBuffer) : UInt8 := s.store.getD s.pos 0

/-- Hands out bytes. -/
def consume (s : LineBuffer) (n : Nat) : LineBuffer :=
  { s with pos := s.pos + n, consumed := s.consumed + n }

/-- Reads into the used up store, and says whether there are bytes again. -/
def refill (s : LineBuffer) : Bool × LineBuffer :=
  if s.ended then (false, s)
  else
    match s.source.fetch s.store.size with
    | ([], source) => (false, { s with source, ended := true })
    | (b :: bs, source) =>
      (true, { s with source, store := overwrite s.store 0 (b :: bs), pos := 0,
                      stop := bs.length + 1 })

/-- Whether the next byte is LF. Reads if the store is used up. -/
def nextIsLineFeed (s : LineBuffer) : Bool × LineBuffer :=
  if s.pos < s.stop then (s.front == lineFeed, s)
  else
    match s.refill with
    | (false, s) => (false, s)
    | (true, s) => (s.front == lineFeed, s)

/-- Hands out the line break that comes next. -/
def takeBreak (s : LineBuffer) : Terminator × LineBuffer :=
  let byte := s.front
  let s := s.consume 1
  if byte == lineFeed then (.lf, s)
  else
    match s.nextIsLineFeed with
    | (true, s) => (.crlf, s.consume 1)
    | (false, s) => (.cr, s)

/-! ## The line loop -/

/-- What one turn of the line loop comes to. -/
inductive Turn
  /-- The search is over. -/
  | finished (line : Option RawLine) (next : LineBuffer)
  /-- The store is used up and the text goes on. -/
  | unfinished (text : Array UInt8) (next : LineBuffer)

/-- Adds what waits in the store to a text, up to the end of the line. -/
def takeText (s : LineBuffer) (text : Array UInt8) : Turn :=
  let (i, text) := gather s.store s.stop s.pos text
  let next := s.consume (i - s.pos)
  if i < s.stop then
    let (terminator, next) := next.takeBreak
    .finished (some ⟨text.toList, terminator⟩) next
  else .unfinished text next

/-- One turn of the line loop: fills the store if it is used up, then takes text from it. At the
end of the input the text that was gathered is the last line, if there is any. -/
def turn (s : LineBuffer) (text : Array UInt8) : Turn :=
  if s.pos < s.stop then s.takeText text
  else
    match s.refill with
    | (true, s) => s.takeText text
    | (false, s) => .finished (if text.isEmpty then none else some ⟨text.toList, .eof⟩) s

/-- The bytes that wait in the store, and the weight of the source. -/
def work (s : LineBuffer) : Nat := s.source.weight + (s.stop - s.pos)

theorem work_consume_le (s : LineBuffer) (n : Nat) : (s.consume n).work ≤ s.work := by
  simp only [work, consume]; omega

theorem work_refill_le (s : LineBuffer) : s.refill.2.work ≤ s.work := by
  fun_cases refill s with
  | case1 => exact Nat.le_refl _
  | case2 _ source h =>
    have := Source.length_add_weight_fetch h
    simp only [work]; omega
  | case3 _ b bs source h =>
    have := Source.length_add_weight_fetch h
    simp only [work, List.length_cons] at *; omega

private theorem lt_of_refill {s next : LineBuffer} (h : s.refill = (true, next)) :
    next.pos < next.stop := by
  fun_cases refill s with
  | case1 => simp_all [refill]
  | case2 => simp_all [refill]
  | case3 _ b bs source hf =>
    simp only [refill, *] at h
    simp at h
    simp [← h]

private theorem work_nextIsLineFeed_le (s : LineBuffer) : s.nextIsLineFeed.2.work ≤ s.work := by
  have := work_refill_le s
  fun_cases nextIsLineFeed s <;> simp_all

private theorem work_takeBreak_lt {s : LineBuffer} (h : s.pos < s.stop) :
    s.takeBreak.2.work < s.work := by
  have h1 : (s.consume 1).work < s.work := by simp only [work, consume]; omega
  have h2 := work_nextIsLineFeed_le (s.consume 1)
  rw [takeBreak]
  split
  · exact h1
  · split
    next next hn =>
      have := work_consume_le next 1
      simp only [hn] at h2
      simp only; omega
    next next hn =>
      simp only [hn] at h2
      simp only; omega

theorem work_lt_of_takeText_finished {s next : LineBuffer} {text : Array UInt8}
    {line : Option RawLine} (h : s.takeText text = .finished line next) :
    next.work < s.work := by
  have hi := le_fst_gather s.store s.stop s.pos text
  revert h
  rw [takeText]
  generalize gather s.store s.stop s.pos text = g at hi ⊢
  obtain ⟨i, text⟩ := g
  simp only
  split
  next hlt =>
    intro h
    have hc := work_consume_le s (i - s.pos)
    have hb := work_takeBreak_lt (s := s.consume (i - s.pos)) (by simp only [consume]; omega)
    simp only [Turn.finished.injEq] at h
    rw [← h.2]; omega
  next => simp

theorem work_lt_of_takeText {s next : LineBuffer} {text more : Array UInt8}
    (h : s.pos < s.stop) (ht : s.takeText text = .unfinished more next) : next.work < s.work := by
  have hi := le_fst_gather s.store s.stop s.pos text
  revert ht
  rw [takeText]
  generalize gather s.store s.stop s.pos text = g at hi ⊢
  obtain ⟨i, text⟩ := g
  simp only
  split
  next => simp
  next hge =>
    intro ht
    obtain ⟨-, rfl⟩ : text = more ∧ s.consume (i - s.pos) = next := by simpa using ht
    simp only [work, consume]; omega

theorem work_lt_of_turn {s next : LineBuffer} {text more : Array UInt8}
    (h : s.turn text = .unfinished more next) : next.work < s.work := by
  have hr := work_refill_le s
  fun_cases turn s text with
  | case1 hlt => exact work_lt_of_takeText hlt (by simpa [turn, hlt] using h)
  | case2 hge full hf =>
    have := work_lt_of_takeText (lt_of_refill hf) (by simpa [turn, hge, hf] using h)
    simp only [hf] at hr; omega
  | case3 hge empty hf => simp [turn, hge, hf] at h

/-- The line loop: takes turns until one of them finishes. -/
def nextLineFrom (s : LineBuffer) (text : Array UInt8) : Option RawLine × LineBuffer :=
  match _h : s.turn text with
  | .finished line next => (line, next)
  | .unfinished text next => next.nextLineFrom text
termination_by s.work
decreasing_by exact work_lt_of_turn _h

/-- Takes the next line off the source; none at the end of the input. -/
def nextLine (s : LineBuffer) : Option RawLine × LineBuffer := s.nextLineFrom #[]

private theorem work_lt_of_turn_finished {s next : LineBuffer} {text : Array UInt8} {line : RawLine}
    (h : s.turn text = .finished (some line) next) :
    next.work < s.work ∨ text ≠ #[] ∧ next.work ≤ s.work := by
  have hr := work_refill_le s
  fun_cases turn s text with
  | case1 hlt => exact .inl (work_lt_of_takeText_finished (by simpa [turn, hlt] using h))
  | case2 hge full hf =>
    have := work_lt_of_takeText_finished (by simpa [turn, hge, hf] using h)
    simp only [hf] at hr; omega
  | case3 hge empty hf =>
    simp only [turn, hge, hf, if_false, Turn.finished.injEq] at h
    obtain ⟨hl, rfl⟩ := h
    simp only [hf] at hr
    refine .inr ⟨?_, hr⟩
    rintro rfl
    simp at hl

private theorem work_lt_of_nextLineFrom {s next : LineBuffer} {text : Array UInt8} {line : RawLine}
    (h : s.nextLineFrom text = (some line, next)) :
    next.work < s.work ∨ text ≠ #[] ∧ next.work ≤ s.work := by
  fun_induction nextLineFrom s text with
  | case1 s text line' next' ht =>
    obtain ⟨rfl, rfl⟩ : line' = some line ∧ next' = next := by simpa using h
    exact work_lt_of_turn_finished ht
  | case2 s text more next' ht ih =>
    have := work_lt_of_turn ht
    rcases ih h with h | h <;> omega

theorem work_lt_of_nextLine {s next : LineBuffer} {line : RawLine}
    (h : s.nextLine = (some line, next)) : next.work < s.work := by
  simpa using work_lt_of_nextLineFrom h

/-! ## All lines -/

/-- Folds over the lines that are left. -/
def foldLines {α : Type} (f : α → RawLine → α) (init : α) (s : LineBuffer) : α × LineBuffer :=
  match _h : s.nextLine with
  | (none, next) => (init, next)
  | (some line, next) => next.foldLines f (f init line)
termination_by s.work
decreasing_by exact work_lt_of_nextLine _h

/-- The lines that are left. -/
def lines (s : LineBuffer) : List RawLine × LineBuffer :=
  let (ls, s) := s.foldLines Array.push #[]
  (ls.toList, s)

end LineBuffer

end Linemark
