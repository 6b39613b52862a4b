import Linemark.Proofs.Line.Characters

/-!
# Sequences of calls

A character reader is used by looking, passing over and reading in any order, and its state is not
the same after a look as before it: the look may have taken a line off the source. Seen from
outside there is only a place in the fixed list of the characters of the input. `Place` is that
view, with two counters. `Place.index` says which character is next, and decides every answer;
`Place.seen` says how many were looked at, and decides how much of the source has been used, since
a line is taken when its first character is asked for.

`CharReader.Follows` relates the two. Settling brings `seen` up to the next character
(`Follows.settle`), which is all that looking does; the other calls settle first and then move on.
-/

namespace Linemark

/-! ## Runs of calls -/

/-- What a sequence of calls leaves behind. -/
def afterCalls {ρ γ α : Type} (call : ρ → γ → α × ρ) (r : ρ) (calls : List γ) : ρ :=
  calls.foldl (fun r c ↦ (call r c).2) r

/-- Where calls come to rest. If any call leads to a state in which calls give nothing and change
nothing, then so does any number of them. -/
theorem call_afterCalls_of_rest {ρ γ α : Type} {call : ρ → γ → Option α × ρ} {r t : ρ}
    (hfirst : ∀ c, call r c = (none, t)) (hrest : ∀ c, call t c = (none, t)) (calls : List γ)
    (c : γ) : call (afterCalls call r calls) c = (none, t) := by
  induction calls generalizing r with
  | nil => exact hfirst c
  | cons d calls ih =>
    change call (afterCalls call (call r d).2 calls) c = _
    rw [hfirst d]
    exact ih hrest

namespace CharReader

/-- What a reader can be asked to do. -/
inductive Call
  | peek
  | skip
  | read
  deriving DecidableEq, Repr

/-- What a call gives, and the reader after it. -/
def call (r : CharReader) : Call → Option LineChar × CharReader
  | .peek => r.peek
  | .skip => (none, r.skip)
  | .read => r.read

/-- The reader after a sequence of calls. -/
def after (r : CharReader) (calls : List Call) : CharReader := afterCalls call r calls

/-- The call passes over a character. -/
def Call.passes : Call → Bool
  | .peek => false
  | .skip => true
  | .read => true

end CharReader

/-! ## Places -/

/-- A place in a list of characters. -/
structure Place where
  /-- How many characters were passed over. -/
  index : Nat
  /-- How many characters were looked at. -/
  seen : Nat
  deriving DecidableEq, Repr

namespace Place

/-- The place before the first character. -/
def start : Place := ⟨0, 0⟩

/-- The place with the next character seen, if there is one. -/
def look (p : Place) (cs : List LineChar) : Place := { p with seen := min (p.index + 1) cs.length }

/-- The place after a call. -/
def move (p : Place) (cs : List LineChar) : CharReader.Call → Place
  | .peek => p.look cs
  | .skip => { p.look cs with index := min (p.index + 1) cs.length }
  | .read => { p.look cs with index := min (p.index + 1) cs.length }

/-- What a call gives at a place. -/
def answer (p : Place) (cs : List LineChar) : CharReader.Call → Option LineChar
  | .peek => cs[p.index]?
  | .skip => none
  | .read => cs[p.index]?

/-- The place after a sequence of calls. -/
def after (p : Place) (cs : List LineChar) (calls : List CharReader.Call) : Place :=
  calls.foldl (fun p c ↦ p.move cs c) p

theorem index_after {p : Place} {cs : List LineChar} (h : p.index ≤ cs.length)
    (calls : List CharReader.Call) :
    (p.after cs calls).index
      = min (p.index + calls.countP CharReader.Call.passes) cs.length := by
  induction calls generalizing p with
  | nil => simp [after, h]
  | cons c calls ih =>
    change ((p.move cs c).after cs calls).index = _
    cases c with
    | peek => simpa [CharReader.Call.passes, move, look] using ih (p := p.move cs .peek) h
    | skip | read =>
      rw [ih (Nat.min_le_right _ _), List.countP_cons_of_pos rfl]
      simp only [move]
      omega

end Place

/-! ## Lines taken -/

/-- The number of the line that the last of some characters is on; zero if there are none. -/
def lastLine (cs : List LineChar) : Nat := (cs.getLast?.map fun c ↦ c.position.line).getD 0

/-- How many bytes lines take, terminators included. -/
def byteCount : List RawLine → Nat
  | [] => 0
  | l :: ls => l.byteLength + byteCount ls

theorem length_join (ls : List RawLine) : (RawLine.join ls).length = byteCount ls := by
  induction ls with
  | nil => rfl
  | cons l ls ih => rw [RawLine.join_cons, List.length_append, ih, RawLine.length_bytes, byteCount]

private theorem lastLine_take_succ {cs : List LineChar} {n : Nat} {c : LineChar}
    (h : cs[n]? = some c) : lastLine (cs.take (n + 1)) = c.position.line := by
  rw [lastLine, List.take_add_one, h]
  simp

private theorem byteCount_take_succ {ls : List RawLine} {n : Nat} {l : RawLine}
    (h : ls[n]? = some l) : byteCount (ls.take (n + 1)) = byteCount (ls.take n) + l.byteLength := by
  rw [List.take_add_one, h, ← length_join, ← length_join, RawLine.join, List.flatMap_append,
    List.length_append]
  simp [RawLine.join, RawLine.length_bytes]

namespace CharReader

/-! ## Following a place -/

/-- A reader of an input with the given lines is at a place in the list of its characters. -/
structure Follows (ls : List RawLine) (filename : String) (p : Place) (r : CharReader) : Prop where
  /-- The reader knows the name of the input. -/
  filename_eq : r.filename = filename
  /-- Its buffer is in a state that can be reached. -/
  valid : r.input.Valid
  /-- What is ahead are the characters from the place on. -/
  ahead_eq : r.ahead = (charsOf filename ls).drop p.index
  /-- What was passed over was looked at. -/
  index_le_seen : p.index ≤ p.seen
  /-- What was looked at is there. -/
  seen_le : p.seen ≤ (charsOf filename ls).length
  /-- The last line taken is that of the last character looked at. -/
  line_eq : r.line = lastLine ((charsOf filename ls).take p.seen)
  /-- The lines ahead are those that were not taken. -/
  lines_eq : RawLine.ofBytes r.input.ahead = ls.drop r.line
  /-- The bytes of the others have been counted. -/
  consumed_eq : r.consumed = byteCount (ls.take r.line)

variable {ls : List RawLine} {filename : String} {p : Place} {r : CharReader}

theorem follows_ofSource (filename : String) {source : Source}
    (h : RawLine.Addressable (RawLine.ofBytes source.delivered)) :
    Follows (RawLine.ofBytes source.delivered) filename .start (ofSource filename source) where
  filename_eq := rfl
  valid := valid_ofSource filename source
  ahead_eq := ahead_ofSource h
  index_le_seen := Nat.le_refl 0
  seen_le := Nat.zero_le _
  line_eq := rfl
  lines_eq := congrArg RawLine.ofBytes
    (LineBuffer.ahead_ofSize source LineBuffer.defaultSize)
  consumed_eq := rfl

private theorem lines_settle (hls : ls.length ≤ Position.limit) (hr : r.input.Valid)
    (hlines : RawLine.ofBytes r.input.ahead = ls.drop r.line)
    (hconsumed : r.consumed = byteCount (ls.take r.line)) :
    RawLine.ofBytes r.settle.input.ahead = ls.drop r.settle.line ∧
      r.settle.consumed = byteCount (ls.take r.settle.line) := by
  fun_cases settle r with
  | case1 c hc => exact ⟨hlines, hconsumed⟩
  | case2 hc input hn =>
    obtain ⟨hout, -⟩ := LineBuffer.spec_of_nextLine_eq_none hr hn
    refine ⟨?_, ?_⟩
    · rw [← hlines, hout.ahead_eq]
      rfl
    · rw [← hconsumed]
      exact hout.consumed_eq
  | case3 hc l input hn =>
    obtain ⟨hout, hcons⟩ := LineBuffer.spec_of_nextLine_eq_some hr hn
    -- the line taken is the one whose number comes next
    have hget : ls[r.line]? = some l := by
      rw [← List.head?_drop, ← hlines, hcons, List.head?_cons]
    have hlt := (List.getElem?_eq_some_iff.mp hget).1
    have hnext : Position.following r.line = r.line + 1 := Position.following_of_lt (by omega)
    simp only [hnext]
    refine ⟨?_, ?_⟩
    · rw [← List.tail_drop, ← hlines, hcons, List.tail_cons]
    · rw [byteCount_take_succ hget, ← hconsumed, ← RawLine.length_bytes]
      exact hout.consumed_eq

private theorem line_of_here {c : LineChar} (h : r.here = some c) : c.position.line = r.line := by
  obtain ⟨d, -, rfl⟩ := Option.map_eq_some_iff.mp h
  rfl

private theorem line_settle_of_here_eq_none (h : r.settle.here = none) :
    r.settle.line = r.line := by
  fun_cases CharReader.settle r with
  | case1 => rfl
  | case2 => rfl
  | case3 hc l input hn => simp [CharReader.settle, hc, hn, here] at h

/-- Settling is looking at the next character. -/
theorem Follows.settle (h : Follows ls filename p r) (hls : ls.length ≤ Position.limit) :
    Follows ls filename (p.look (charsOf filename ls)) r.settle := by
  obtain ⟨hvalid, hfilename, hahead, hnone⟩ := settle_spec h.valid
  obtain ⟨hlines, hconsumed⟩ := lines_settle hls h.valid h.lines_eq h.consumed_eq
  have hle := h.index_le_seen
  have hseen := h.seen_le
  refine ⟨hfilename.trans h.filename_eq, hvalid, hahead.trans h.ahead_eq, ?_, ?_, ?_, hlines,
    hconsumed⟩
  · simp only [Place.look]
    omega
  · exact Nat.min_le_right _ _
  · have hhere := here_settle h.valid
    rw [h.ahead_eq, List.head?_drop] at hhere
    cases hc : (charsOf filename ls)[p.index]? with
    | some c =>
      have hlt := (List.getElem?_eq_some_iff.mp hc).1
      rw [hc] at hhere
      rw [Place.look, Nat.min_eq_left hlt, lastLine_take_succ hc, line_of_here hhere]
    | none =>
      -- all characters were passed over, and so all were seen before
      have hge := List.getElem?_eq_none_iff.mp hc
      have hsame : (p.look (charsOf filename ls)).seen = p.seen := by
        simp only [Place.look]
        omega
      rw [hc] at hhere
      rw [hsame, ← h.line_eq, line_settle_of_here_eq_none hhere]

/-! ## Calls -/

/-- The answer of a call is decided by the place alone. -/
theorem Follows.answer_eq (h : Follows ls filename p r) (c : Call) :
    (r.call c).1 = p.answer (charsOf filename ls) c := by
  have hhead : r.ahead.head? = (charsOf filename ls)[p.index]? := by
    rw [h.ahead_eq, List.head?_drop]
  cases c with
  | peek => exact (peek_spec h.valid).2.1.trans hhead
  | skip => rfl
  | read => exact (read_spec h.valid).2.1.trans hhead

theorem Follows.skip (h : Follows ls filename p r) (hls : ls.length ≤ Position.limit) :
    Follows ls filename (p.move (charsOf filename ls) .skip) r.skip := by
  have hs := h.settle hls
  refine ⟨hs.filename_eq, hs.valid, ?_, Nat.le_refl _, hs.seen_le, hs.line_eq, hs.lines_eq,
    hs.consumed_eq⟩
  rw [(skip_spec h.valid).2, h.ahead_eq, List.tail_drop, Place.move]
  rcases Nat.le_total (p.index + 1) (charsOf filename ls).length with hle | hge
  · rw [Nat.min_eq_left hle]
  · -- at the end of the list the place stays, and so do the characters from it on
    rw [Nat.min_eq_right hge, List.drop_of_length_le hge, List.drop_length]

theorem Follows.read (h : Follows ls filename p r) (hls : ls.length ≤ Position.limit) :
    Follows ls filename (p.move (charsOf filename ls) .read) r.read.2 := by
  have hs := h.settle hls
  have hanswer := h.answer_eq .peek
  fun_cases CharReader.read r with
  | case1 t hp =>
    -- there is no character, and the place is the end of the list
    rw [call, hp] at hanswer
    have hge := List.getElem?_eq_none_iff.mp hanswer.symm
    have hle := h.index_le_seen
    have hseen := h.seen_le
    have hmove : p.move (charsOf filename ls) .read = p.look (charsOf filename ls) := by
      simp only [Place.move, Place.look, Place.mk.injEq, and_true]
      omega
    obtain rfl : r.settle = t := congrArg Prod.snd hp
    rw [hmove]
    exact hs
  | case2 c t hp =>
    obtain rfl : r.settle = t := congrArg Prod.snd hp
    exact hs.skip hls

theorem Follows.call (h : Follows ls filename p r) (hls : ls.length ≤ Position.limit) (c : Call) :
    Follows ls filename (p.move (charsOf filename ls) c) (r.call c).2 := by
  cases c with
  | peek => exact h.settle hls
  | skip => exact h.skip hls
  | read => exact h.read hls

theorem Follows.after (h : Follows ls filename p r) (hls : ls.length ≤ Position.limit)
    (calls : List Call) :
    Follows ls filename (p.after (charsOf filename ls) calls) (r.after calls) := by
  induction calls generalizing p r with
  | nil => exact h
  | cons c calls ih => exact ih (h.call hls c)

/-! ## The end of the input -/

private theorem settle_of_nextLine_eq_none {input : LineBuffer} (hc : r.current = none)
    (hn : r.input.nextLine = (none, input)) : r.settle = { r with input } := by
  simp [CharReader.settle, hc, hn]

theorem settle_settle (hr : r.input.Valid) : r.settle.settle = r.settle := by
  have hvalid := (settle_spec hr).1
  fun_cases CharReader.settle r with
  | case1 c hc => exact settle_of_current hc
  | case2 hc input hn =>
    rw [settle_of_nextLine_eq_none hc hn] at hvalid
    have hended := LineBuffer.ended_of_nextLine_eq_none hn
    exact settle_of_nextLine_eq_none hc (LineBuffer.nextLine_of_ended hvalid hended)
  | case3 hc l input hn => exact settle_of_current rfl

theorem call_of_here_settle_eq_none (h : r.settle.here = none) (c : Call) :
    r.call c = (none, r.settle) := by
  have hcurrent : r.settle.current = none := Option.map_eq_none_iff.mp h
  have hpeek : r.peek = (none, r.settle) := by rw [peek, h]
  cases c with
  | peek => exact hpeek
  | skip => rw [call, CharReader.skip, hcurrent, Option.bind_none, ← hcurrent]
  | read => rw [call, CharReader.read, hpeek]

/-- The end is permanent. From a reader that has come to it no call gets a character, and all
calls leave the same reader behind. -/
theorem call_after_of_here_settle_eq_none (hr : r.input.Valid) (h : r.settle.here = none)
    (calls : List Call) (c : Call) : (r.after calls).call c = (none, r.settle) := by
  -- the first call leaves the settled reader behind, and settling it again changes nothing
  refine call_afterCalls_of_rest (call_of_here_settle_eq_none h) (fun d ↦ ?_) calls c
  rw [call_of_here_settle_eq_none (by rwa [settle_settle hr]) d, settle_settle hr]

private theorem Follows.consumed_of_index_eq (h : Follows ls filename p r)
    (hp : p.index = (charsOf filename ls).length) : r.consumed = byteCount ls := by
  have hahead : r.ahead = [] := by rw [h.ahead_eq, hp, List.drop_length]
  have hlines : RawLine.ofBytes r.input.ahead = [] :=
    charsAfter_eq_nil_iff.mp (List.append_eq_nil_iff.mp hahead).2
  rw [h.lines_eq] at hlines
  rw [h.consumed_eq, List.take_of_length_le (List.drop_eq_nil_iff.mp hlines)]

/-! ## The reader as a place in a list -/

/-- **A character reader is a place in a fixed list.** The list is that of the characters of the
input, and whatever calls were made, in whatever order, their number alone says which of them is
next. Lines are counted as consumed when their first character was looked at. At the end of the list
the reader stays for good. -/
theorem call_after_eq_answer (filename : String) {source : Source}
    (h : RawLine.Addressable (RawLine.ofBytes source.delivered)) (calls : List Call) :
    let ls := RawLine.ofBytes source.delivered
    let cs := charsOf filename ls
    let r := (ofSource filename source).after calls
    let p := Place.start.after cs calls
    (cs.map LineChar.byte = ls.flatMap fun l ↦ l.text ++ [lineFeed]) ∧
      p.index = min (calls.countP Call.passes) cs.length ∧
      (∀ c, (r.call c).1 = p.answer cs c) ∧
      r.peek.2.peek.1 = r.peek.1 ∧
      (r.line = lastLine (cs.take p.seen) ∧ r.consumed = byteCount (ls.take r.line)) ∧
      (p.index = cs.length → r.consumed = source.delivered.length ∧
        ∀ more c, (r.after more).call c = (none, r.peek.2)) := by
  intro ls cs r p
  have hr : Follows ls filename p r := (follows_ofSource filename h).after h.length_le calls
  have hindex : p.index = min (calls.countP Call.passes) cs.length :=
    (Place.index_after (p := .start) (Nat.zero_le cs.length) calls).trans (by simp [Place.start])
  refine ⟨map_byte_charsOf filename ls, hindex, hr.answer_eq, ?_, ⟨hr.line_eq, hr.consumed_eq⟩,
    fun hp ↦ ⟨?_, ?_⟩⟩
  · exact ((hr.settle h.length_le).answer_eq .peek).trans (hr.answer_eq .peek).symm
  · rw [hr.consumed_of_index_eq hp, ← length_join, RawLine.join_ofBytes]
  · have hhere : r.settle.here = none := by
      rw [here_settle hr.valid, hr.ahead_eq, hp, List.drop_length, List.head?_nil]
    exact call_after_of_here_settle_eq_none hr.valid hhere

theorem call_after_eq_answer_scattered :
    RawLine.Addressable (RawLine.ofBytes LineBuffer.scattered.delivered) ∧
      (let r := (ofSource "input" LineBuffer.scattered).after [.skip, .peek, .read]
      (r.call .read).1 = some ⟨⟨"input", 2, 1⟩, [0x62], .content 0x62⟩ ∧ r.consumed = 3) := by
  have h : RawLine.Addressable (RawLine.ofBytes LineBuffer.scattered.delivered) := by
    rw [LineBuffer.ofBytes_delivered_scattered]
    decide
  have hcalls := call_after_eq_answer "input" h [.skip, .peek, .read]
  rw [LineBuffer.ofBytes_delivered_scattered] at hcalls
  obtain ⟨-, -, hanswer, -, ⟨hline, hconsumed⟩, -⟩ := hcalls
  refine ⟨h, (hanswer .read).trans (by decide), ?_⟩
  rw [hconsumed, hline]
  decide

end CharReader

end Linemark
