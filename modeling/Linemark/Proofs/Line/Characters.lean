import Linemark.Line.Reader
import Linemark.Proofs.Line.Buffering

/-!
# The characters of an input

A character reader gives the characters of an input one after another. What they are is said on
whole lines: `Line.chars` lists the characters of one line, `numbered` gives the lines of an input
their numbers, and `charsOf` puts the two together.

## What is ahead of a reader

The state of a reader is seen through `CharReader.ahead`, the list of the characters that it has
not passed over. Looking leaves this list as it is and gives its head, passing over takes its tail,
and reading does both; that a line may have to be taken off the source first shows in none of
these equations. A fold over what a reader gives is therefore a fold over a list
(`foldChars_fst`), and everything above the reader can be stated and proved about lists.

Positions stop counting at `Position.limit`, and `CharReader.ahead` says exactly what a reader
gives beyond it as well. For inputs that are `RawLine.Addressable` no counting is cut short, and it
is `charsOf`.
-/

namespace Linemark

/-! ## Characters of lines -/

/-- The characters of a line: its bytes, at columns from one, and behind them its end. -/
def Line.chars (l : Line) : List LineChar :=
  l.text.mapIdx (fun i b ↦ ⟨{ l.position with column := i + 1 }, l.text, .content b⟩) ++
    [⟨{ l.position with column := l.text.length + 1 }, l.text, .lineEnd⟩]

theorem Line.map_byte_chars (l : Line) : l.chars.map LineChar.byte = l.text ++ [lineFeed] := by
  rw [chars, List.map_append]
  congr 1
  exact List.ext_getElem (by simp) fun i _ _ ↦ by simp [LineChar.byte]

/-- The lines of an input with its name, numbered from `n` on. -/
def numbered (filename : String) (n : Nat) : List RawLine → List Line
  | [] => []
  | l :: ls => ⟨⟨filename, n, 0⟩, l.text⟩ :: numbered filename (n + 1) ls

/-- The characters of an input that has the given lines. -/
def charsOf (filename : String) (ls : List RawLine) : List LineChar :=
  (numbered filename 1 ls).flatMap Line.chars

/-- **What an input reads as**: the texts of its lines, each with LF behind it. -/
theorem map_byte_charsOf (filename : String) (ls : List RawLine) :
    (charsOf filename ls).map LineChar.byte = ls.flatMap fun l ↦ l.text ++ [lineFeed] := by
  rw [charsOf]
  generalize 1 = n
  induction ls generalizing n with
  | nil => rfl
  | cons l ls ih =>
    rw [numbered, List.flatMap_cons, List.map_append, ih, List.flatMap_cons, Line.map_byte_chars]

/-- Lines all of whose characters have positions of their own: counting them comes to its limit
neither for the lines nor for the columns. -/
structure RawLine.Addressable (ls : List RawLine) : Prop where
  /-- Every line has a number. -/
  length_le : ls.length ≤ Position.limit
  /-- Every byte of a line has a column, and so has its end. -/
  length_text_lt : ∀ l ∈ ls, l.text.length < Position.limit

instance (ls : List RawLine) : Decidable (RawLine.Addressable ls) :=
  decidable_of_iff (ls.length ≤ Position.limit ∧ ∀ l ∈ ls, l.text.length < Position.limit)
    ⟨fun h ↦ ⟨h.1, h.2⟩, fun h ↦ ⟨h.1, h.2⟩⟩

/-! ## Characters from a place on -/

namespace Cursor

/-- The characters from a place to the end of the line, this one included. -/
def chars (c : Cursor) (filename : String) (line : Nat) : List LineChar :=
  match _h : c.next? with
  | none => [c.char filename line]
  | some d => c.char filename line :: d.chars filename line
termination_by c.size
decreasing_by exact size_lt_of_next? _h

private theorem chars_eq_cons (c : Cursor) (filename : String) (line : Nat) :
    c.chars filename line
      = c.char filename line :: (c.next?.map fun d ↦ d.chars filename line).getD [] := by
  rw [chars]
  split
  next h => simp [h]
  next d h => simp [h]

/-- The characters from a place on are the bytes ahead of it and the end of the line, at columns
that are counted as far as columns are. -/
theorem chars_eq_following (c : Cursor) (filename : String) (line : Nat) :
    c.chars filename line =
      c.ahead.mapIdx
          (fun i b ↦ ⟨⟨filename, line, Position.following (c.offset + i)⟩, c.text, .content b⟩) ++
        [⟨⟨filename, line, Position.following (c.offset + c.ahead.length)⟩, c.text, .lineEnd⟩] := by
  obtain ⟨text, offset, ahead⟩ := c
  -- the offset and the bytes ahead move together
  induction ahead generalizing offset with
  | nil =>
    rw [chars_eq_cons]
    simp [next?, char, kind]
  | cons b rest ih =>
    rw [chars_eq_cons]
    simp only [next?, Option.map_some, Option.getD_some]
    rw [ih (offset + 1), List.mapIdx_cons]
    simp [char, kind, Nat.add_assoc, Nat.add_comm 1]

private theorem chars_eq {c : Cursor} (filename : String) (line : Nat)
    (h : c.offset + c.ahead.length < Position.limit) :
    c.chars filename line =
      c.ahead.mapIdx (fun i b ↦ ⟨⟨filename, line, c.offset + i + 1⟩, c.text, .content b⟩) ++
        [⟨⟨filename, line, c.offset + c.ahead.length + 1⟩, c.text, .lineEnd⟩] := by
  rw [chars_eq_following, Position.following_of_lt h]
  congr 1
  refine List.ext_getElem (by simp) fun i hi _ ↦ ?_
  rw [List.length_mapIdx] at hi
  simp only [List.getElem_mapIdx]
  rw [Position.following_of_lt (by omega)]

private theorem chars_start {text : Bytes} (filename : String) (line column : Nat)
    (h : text.length < Position.limit) :
    (start text).chars filename line = Line.chars ⟨⟨filename, line, column⟩, text⟩ := by
  rw [chars_eq filename line (by simpa [start] using h)]
  simp [start, Line.chars]

end Cursor

/-! ## What is ahead of a reader -/

/-- The characters of the lines that follow a line with the given number. -/
def charsAfter (filename : String) (n : Nat) : List RawLine → List LineChar
  | [] => []
  | l :: ls =>
    (Cursor.start l.text).chars filename (Position.following n) ++
      charsAfter filename (Position.following n) ls

theorem charsAfter_eq_nil_iff {filename : String} {n : Nat} {ls : List RawLine} :
    charsAfter filename n ls = [] ↔ ls = [] := by
  cases ls with
  | nil => simp [charsAfter]
  | cons l ls =>
    rw [charsAfter, Cursor.chars_eq_cons]
    simp

theorem charsAfter_eq (filename : String) {n : Nat} {ls : List RawLine}
    (hlength : n + ls.length ≤ Position.limit)
    (htext : ∀ l ∈ ls, l.text.length < Position.limit) :
    charsAfter filename n ls = (numbered filename (n + 1) ls).flatMap Line.chars := by
  induction ls generalizing n with
  | nil => rfl
  | cons l ls ih =>
    rw [List.length_cons] at hlength
    rw [charsAfter, numbered, List.flatMap_cons, Position.following_of_lt (by omega),
      Cursor.chars_start filename (n + 1) 0 (htext l List.mem_cons_self),
      ih (by omega) fun m hm ↦ htext m (List.mem_cons_of_mem l hm)]

namespace CharReader

/-- The characters that a reader has not passed over. -/
def ahead (r : CharReader) : List LineChar :=
  (r.current.map fun c ↦ c.chars r.filename r.line).getD [] ++
    charsAfter r.filename r.line (RawLine.ofBytes r.input.ahead)

private theorem ahead_of_current {r : CharReader} {c : Cursor} (h : r.current = some c) :
    r.ahead = c.chars r.filename r.line ++
      charsAfter r.filename r.line (RawLine.ofBytes r.input.ahead) := by
  simp [ahead, h]

private theorem ahead_of_current_eq_none {r : CharReader} (h : r.current = none) :
    r.ahead = charsAfter r.filename r.line (RawLine.ofBytes r.input.ahead) := by
  simp [ahead, h]

theorem valid_ofSource (filename : String) (source : Source) :
    (ofSource filename source).input.Valid :=
  LineBuffer.valid_ofSize source LineBuffer.defaultSize

theorem ahead_ofSource_eq (filename : String) (source : Source) :
    (ofSource filename source).ahead
      = charsAfter filename 0 (RawLine.ofBytes source.delivered) := by
  change charsAfter filename 0 (RawLine.ofBytes (LineBuffer.ofSource source).ahead) = _
  rw [LineBuffer.ofSource, LineBuffer.ahead_ofSize]

theorem ahead_ofSource {filename : String} {source : Source}
    (h : RawLine.Addressable (RawLine.ofBytes source.delivered)) :
    (ofSource filename source).ahead = charsOf filename (RawLine.ofBytes source.delivered) := by
  have hlength := h.length_le
  rw [ahead_ofSource_eq, charsAfter_eq filename (by omega) h.length_text_lt, charsOf]

/-- Settling takes a line if the reader is on none, and changes nothing that is ahead. A reader
that is on no line then has come to the end. -/
theorem settle_spec {r : CharReader} (hr : r.input.Valid) :
    r.settle.input.Valid ∧ r.settle.filename = r.filename ∧ r.settle.ahead = r.ahead ∧
      (r.settle.current = none → r.ahead = []) := by
  fun_cases settle r with
  | case1 c hc => exact ⟨hr, rfl, rfl, fun h ↦ by simp [hc] at h⟩
  | case2 hc input hn =>
    obtain ⟨hout, hnil⟩ := LineBuffer.spec_of_nextLine_eq_none hr hn
    have hahead : input.ahead = [] := by simpa [hnil] using hout.ahead_eq.symm
    have hstart : r.ahead = [] := by
      rw [ahead_of_current_eq_none hc, hnil, RawLine.ofBytes_nil, charsAfter]
    have hend : ahead { r with input }
        = charsAfter r.filename r.line (RawLine.ofBytes input.ahead) := ahead_of_current_eq_none hc
    refine ⟨hout.valid, rfl, ?_, fun _ ↦ hstart⟩
    rw [hend, hahead, hstart, RawLine.ofBytes_nil, charsAfter]
  | case3 hc l input hn =>
    -- the line taken leaves the lines ahead, and its characters are ahead in its place
    obtain ⟨hout, hlines⟩ := LineBuffer.spec_of_nextLine_eq_some hr hn
    refine ⟨hout.valid, rfl, ?_, fun h ↦ by simp at h⟩
    rw [ahead_of_current rfl, ahead_of_current_eq_none hc, hlines, charsAfter]

theorem here_settle {r : CharReader} (hr : r.input.Valid) : r.settle.here = r.ahead.head? := by
  obtain ⟨-, -, hahead, hnone⟩ := settle_spec hr
  rw [here]
  cases hc : r.settle.current with
  | none => simp [hnone hc]
  | some c =>
    rw [← hahead, ahead_of_current hc, Cursor.chars_eq_cons]
    rfl

theorem peek_spec {r : CharReader} (hr : r.input.Valid) :
    r.peek.2.input.Valid ∧ r.peek.1 = r.ahead.head? ∧ r.peek.2.ahead = r.ahead := by
  obtain ⟨hvalid, -, hahead, -⟩ := settle_spec hr
  exact ⟨hvalid, here_settle hr, hahead⟩

theorem skip_spec {r : CharReader} (hr : r.input.Valid) :
    r.skip.input.Valid ∧ r.skip.ahead = r.ahead.tail := by
  obtain ⟨hvalid, -, hahead, hnone⟩ := settle_spec hr
  refine ⟨hvalid, ?_⟩
  cases hc : r.settle.current with
  | none =>
    have hlines : r.settle.ahead = [] := by rw [hahead, hnone hc]
    rw [hnone hc]
    simpa [skip, ahead, hc] using hlines
  | some c =>
    rw [← hahead, ahead_of_current hc, Cursor.chars_eq_cons, List.cons_append, List.tail_cons]
    simp only [skip, ahead, hc, Option.bind_some]

theorem read_spec {r : CharReader} (hr : r.input.Valid) :
    r.read.2.input.Valid ∧ r.read.1 = r.ahead.head? ∧ r.read.2.ahead = r.ahead.tail := by
  obtain ⟨hvalid, hhead, hahead⟩ := peek_spec hr
  fun_cases read r with
  | case1 t hp =>
    rw [hp] at hvalid hhead hahead
    have hnil : r.ahead = [] := List.head?_eq_none_iff.mp hhead.symm
    refine ⟨hvalid, hhead, ?_⟩
    rw [hahead, hnil]
    rfl
  | case2 c t hp =>
    rw [hp] at hvalid hhead hahead
    obtain ⟨hvalid', hahead'⟩ := skip_spec hvalid
    exact ⟨hvalid', hhead, by rw [hahead', hahead]⟩

/-! ## Folding over characters -/

/-- Folding over what a reader gives is folding over what is ahead of it. -/
theorem foldChars_fst {α ε : Type} (f : α → LineChar → Except ε α) (init : α) {r : CharReader}
    (hr : r.input.Valid) : (r.foldChars f init).map Prod.fst = r.ahead.foldlM f init := by
  -- each step reads one character, and that is the head of what is ahead
  fun_induction foldChars f init r with
  | case1 init r t hread =>
    obtain ⟨-, hhead, -⟩ := read_spec hr
    rw [hread] at hhead
    rw [List.head?_eq_none_iff.mp hhead.symm]
    rfl
  | case2 init r c t hread a hf ih =>
    obtain ⟨hvalid, hhead, htail⟩ := read_spec hr
    rw [hread] at hvalid hhead htail
    rw [ih hvalid, List.eq_cons_of_mem_head? hhead.symm, List.foldlM_cons, hf, htail]
    rfl
  | case3 init r c t hread e hf =>
    obtain ⟨-, hhead, -⟩ := read_spec hr
    rw [hread] at hhead
    rw [List.eq_cons_of_mem_head? hhead.symm, List.foldlM_cons, hf]
    rfl

theorem chars_fst {r : CharReader} (hr : r.input.Valid) : r.chars.1 = r.ahead := by
  have hfold := foldChars_fst
    (fun (cs : Array LineChar) c ↦ (pure (cs.push c) : Except Empty (Array LineChar))) #[] hr
  rw [List.foldlM_pure] at hfold
  rw [chars]
  split
  next cs after h =>
    have hkept : r.foldChars
        (fun (cs : Array LineChar) c ↦ (pure (cs.push c) : Except Empty (Array LineChar))) #[]
          = .ok (cs, after) := h
    rw [hkept] at hfold
    obtain rfl : cs = r.ahead.foldl Array.push #[] := Except.ok.inj hfold
    simp

theorem chars_eq_charsOf (filename : String) {source : Source}
    (h : RawLine.Addressable (RawLine.ofBytes source.delivered)) :
    (ofSource filename source).chars.1 = charsOf filename (RawLine.ofBytes source.delivered) :=
  (chars_fst (valid_ofSource filename source)).trans (ahead_ofSource h)

end CharReader

end Linemark
