import Linemark.Line.Reader
import Linemark.Proofs.Line.Characters

/-!
# The lines of an input

A line reader gives the lines of an input one after another, with their numbers and the ways they
end. Its state is seen through `LineReader.ahead`, the list of the lines that it has not given.
Reading gives the head of this list and leaves its tail (`LineReader.readTerminated_spec`), and so a
fold over what a reader gives is a fold over a list (`LineReader.foldLines_fst`).

Numbers stop at `Position.limit`, and `linesAfter` says exactly what a reader gives beyond it as
well. The characters of the same input are those of its lines, one line after the other
(`charsAfter_eq_flatMap`): a character reader counts lines as a line reader does.
-/

namespace Linemark

/-! ## Counting the characters of a line -/

/-- The characters of a line, at columns that are counted as far as columns are. -/
def Line.countedChars (l : Line) : List LineChar :=
  l.text.mapIdx
      (fun i b ↦ ⟨{ l.position with column := Position.following i }, l.text, .content b⟩) ++
    [⟨{ l.position with column := Position.following l.text.length }, l.text, .lineEnd⟩]

theorem Line.countedChars_eq {l : Line} (h : l.text.length < Position.limit) :
    l.countedChars = l.chars := by
  rw [countedChars, chars, Position.following_of_lt h]
  congr 1
  refine List.ext_getElem (by simp) fun i hi _ ↦ ?_
  rw [List.length_mapIdx] at hi
  simp only [List.getElem_mapIdx]
  rw [Position.following_of_lt (Nat.lt_trans hi h)]

private theorem Line.exists_position_eq_of_mem_countedChars {l : Line} {c : LineChar}
    (h : c ∈ l.countedChars) :
    ∃ i, c.position = { l.position with column := Position.following i } := by
  rw [countedChars, List.mem_append, List.mem_mapIdx, List.mem_singleton] at h
  rcases h with ⟨i, hi, rfl⟩ | rfl
  · exact ⟨i, rfl⟩
  · exact ⟨l.text.length, rfl⟩

theorem Line.position_line_of_mem_countedChars {l : Line} {c : LineChar}
    (h : c ∈ l.countedChars) : c.position.line = l.position.line := by
  obtain ⟨i, hi⟩ := exists_position_eq_of_mem_countedChars h
  rw [hi]

theorem Cursor.chars_start_eq_countedChars (text : Bytes) (filename : String) (line : Nat) :
    (start text).chars filename line = Line.countedChars ⟨⟨filename, line, 0⟩, text⟩ := by
  rw [chars_eq_following]
  simp [start, Line.countedChars]

/-! ## Counting lines -/

/-- The lines that follow a line with the given number. -/
def linesAfter (filename : String) (n : Nat) : List RawLine → List (Line × Terminator)
  | [] => []
  | l :: ls =>
    (⟨⟨filename, Position.following n, 0⟩, l.text⟩, l.terminator) ::
      linesAfter filename (Position.following n) ls

section

variable {filename : String} {n : Nat}

theorem linesAfter_eq_nil_iff {ls : List RawLine} : linesAfter filename n ls = [] ↔ ls = [] := by
  cases ls with
  | nil => simp [linesAfter]
  | cons l ls => simp [linesAfter]

theorem length_linesAfter (ls : List RawLine) : (linesAfter filename n ls).length = ls.length := by
  induction ls generalizing n with
  | nil => rfl
  | cons l ls ih => rw [linesAfter, List.length_cons, List.length_cons, ih]

theorem getElem?_linesAfter (h : n ≤ Position.limit) (ls : List RawLine) (i : Nat) :
    (linesAfter filename n ls)[i]? = ls[i]?.map fun l ↦
      (⟨⟨filename, min (n + i + 1) Position.limit, 0⟩, l.text⟩, l.terminator) := by
  induction ls generalizing n i with
  | nil => rfl
  | cons l ls ih =>
    have hle : Position.following n ≤ Position.limit := Nat.min_le_right _ _
    cases i with
    | zero => rfl
    | succ i =>
      rw [linesAfter, List.getElem?_cons_succ, ih hle, List.getElem?_cons_succ]
      have hnumber : min (Position.following n + i + 1) Position.limit
          = min (n + (i + 1) + 1) Position.limit := by
        rw [Position.following]
        omega
      rw [hnumber]

private theorem map_fst_linesAfter {ls : List RawLine} (h : n + ls.length ≤ Position.limit) :
    (linesAfter filename n ls).map Prod.fst = numbered filename (n + 1) ls := by
  induction ls generalizing n with
  | nil => rfl
  | cons l ls ih =>
    rw [List.length_cons] at h
    rw [linesAfter, numbered, List.map_cons, Position.following_of_lt (by omega), ih (by omega)]

/-- The characters of an input are those of its lines. -/
theorem charsAfter_eq_flatMap (ls : List RawLine) :
    charsAfter filename n ls = (linesAfter filename n ls).flatMap fun l ↦ l.1.countedChars := by
  induction ls generalizing n with
  | nil => rfl
  | cons l ls ih =>
    rw [charsAfter, linesAfter, List.flatMap_cons, ih, Cursor.chars_start_eq_countedChars]

private theorem filename_of_mem_linesAfter {ls : List RawLine} {l : Line × Terminator}
    (h : l ∈ linesAfter filename n ls) : l.1.position.filename = filename := by
  induction ls generalizing n with
  | nil => simp [linesAfter] at h
  | cons m ls ih =>
    rw [linesAfter, List.mem_cons] at h
    rcases h with rfl | h
    · rfl
    · exact ih h

theorem position_of_mem_charsAfter {ls : List RawLine} {c : LineChar}
    (h : c ∈ charsAfter filename n ls) :
    c.position.filename = filename ∧ 1 ≤ c.position.column := by
  rw [charsAfter_eq_flatMap] at h
  obtain ⟨l, hl, hc⟩ := List.mem_flatMap.mp h
  obtain ⟨i, hi⟩ := Line.exists_position_eq_of_mem_countedChars hc
  rw [hi]
  exact ⟨filename_of_mem_linesAfter hl, Nat.le_min.mpr ⟨Nat.le_add_left 1 i, by decide⟩⟩

end

namespace LineReader

/-! ## What is ahead of a reader -/

/-- The lines that a reader has not given. -/
def ahead (r : LineReader) : List (Line × Terminator) :=
  linesAfter r.filename r.line (RawLine.ofBytes r.input.ahead)

variable {r : LineReader}

theorem valid_ofSource (filename : String) (source : Source) :
    (ofSource filename source).input.Valid :=
  LineBuffer.valid_ofSize source LineBuffer.defaultSize

theorem ahead_ofSource (filename : String) (source : Source) :
    (ofSource filename source).ahead
      = linesAfter filename 0 (RawLine.ofBytes source.delivered) := by
  change linesAfter filename 0 (RawLine.ofBytes (LineBuffer.ofSource source).ahead) = _
  rw [LineBuffer.ofSource, LineBuffer.ahead_ofSize]

/-- Reading a line gives the head of what is ahead and leaves the tail. -/
theorem readTerminated_spec (hr : r.input.Valid) :
    r.readTerminated.2.input.Valid ∧ r.readTerminated.1 = r.ahead.head? ∧
      r.readTerminated.2.ahead = r.ahead.tail := by
  fun_cases readTerminated r with
  | case1 input hn =>
    obtain ⟨hout, hnil⟩ := LineBuffer.spec_of_nextLine_eq_none hr hn
    have hahead : input.ahead = [] := by simpa [hnil] using hout.ahead_eq.symm
    have hstart : r.ahead = [] := by rw [ahead, hnil, RawLine.ofBytes_nil, linesAfter]
    have hend : ahead { r with input } = [] := by
      change linesAfter r.filename r.line (RawLine.ofBytes input.ahead) = []
      rw [hahead, RawLine.ofBytes_nil, linesAfter]
    exact ⟨hout.valid, by rw [hstart]; rfl, by rw [hend, hstart]; rfl⟩
  | case2 split input hn =>
    obtain ⟨hout, hlines⟩ := LineBuffer.spec_of_nextLine_eq_some hr hn
    refine ⟨hout.valid, ?_, ?_⟩
    · rw [ahead, hlines]
      rfl
    · rw [ahead, ahead, hlines]
      rfl

/-! ## Folding over lines -/

/-- Folding over what a reader gives is folding over what is ahead of it. -/
theorem foldLines_fst {α ε : Type} (f : α → Line × Terminator → Except ε α) (init : α)
    (hr : r.input.Valid) : (r.foldLines f init).map Prod.fst = r.ahead.foldlM f init := by
  -- each step reads one line, and that is the head of what is ahead
  fun_induction foldLines f init r with
  | case1 init r t hread =>
    obtain ⟨-, hhead, -⟩ := readTerminated_spec hr
    rw [hread] at hhead
    rw [List.head?_eq_none_iff.mp hhead.symm]
    rfl
  | case2 init r l t hread a hf ih =>
    obtain ⟨hvalid, hhead, htail⟩ := readTerminated_spec hr
    rw [hread] at hvalid hhead htail
    rw [ih hvalid, List.eq_cons_of_mem_head? hhead.symm, List.foldlM_cons, hf, htail]
    rfl
  | case3 init r l t hread e hf =>
    obtain ⟨-, hhead, -⟩ := readTerminated_spec hr
    rw [hread] at hhead
    rw [List.eq_cons_of_mem_head? hhead.symm, List.foldlM_cons, hf]
    rfl

theorem lines_fst (hr : r.input.Valid) : r.lines.1 = r.ahead.map Prod.fst := by
  have hfold := foldLines_fst (fun (ls : Array Line) (l : Line × Terminator) ↦
    (pure (ls.push l.1) : Except Empty (Array Line))) #[] hr
  rw [List.foldlM_pure] at hfold
  rw [lines]
  split
  next ls after h =>
    have hkept : r.foldLines (fun (ls : Array Line) (l : Line × Terminator) ↦
        (pure (ls.push l.1) : Except Empty (Array Line))) #[] = .ok (ls, after) := h
    rw [hkept] at hfold
    obtain rfl : ls = r.ahead.foldl (fun ls l ↦ ls.push l.1) #[] := Except.ok.inj hfold
    rw [← List.foldl_map (g := Array.push)]
    simp

end LineReader

/-! ## All of a source -/

section

variable (filename : String) {source : Source}

theorem LineReader.lines_ofSource
    (h : (RawLine.ofBytes source.delivered).length ≤ Position.limit) :
    (LineReader.ofSource filename source).lines.1
      = numbered filename 1 (RawLine.ofBytes source.delivered) := by
  have hle : 0 + (RawLine.ofBytes source.delivered).length ≤ Position.limit := by
    rwa [Nat.zero_add]
  rw [lines_fst (valid_ofSource filename source), ahead_ofSource, map_fst_linesAfter hle]

/-- The characters of a source are those of its numbered lines. -/
theorem CharReader.chars_ofSource
    (h : (RawLine.ofBytes source.delivered).length ≤ Position.limit) :
    (CharReader.ofSource filename source).chars.1
      = (numbered filename 1 (RawLine.ofBytes source.delivered)).flatMap Line.countedChars := by
  have hle : 0 + (RawLine.ofBytes source.delivered).length ≤ Position.limit := by
    rwa [Nat.zero_add]
  rw [chars_fst (valid_ofSource filename source), ahead_ofSource_eq, charsAfter_eq_flatMap,
    ← map_fst_linesAfter hle, List.flatMap_map]

end

end Linemark
