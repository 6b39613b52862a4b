import Linemark.Listing
import Linemark.Proofs.Line.Lines
import Linemark.Proofs.Stream.Writing
import Linemark.Proofs.Text.Numerals

/-!
# Rows of a listing

A listing is written while the input is read, row by row, and the row of a line in three parts. As
far as the sink is concerned it might as well have been put together first and written at once
(`Sink.listLines_eq`, `Sink.listChars_eq`): both the bytes that are taken and the reason why others
are not are the same. What is left to say about a listing is which rows it has, and that is a matter
of what is ahead of the reader.

Rows can be told apart by what they start with. A row starts with a place, and behind the name of
the input a place is numbers with colons behind them; so no place starts with another one
(`utf8_place_prefix_iff`), whatever the name is.
-/

namespace Linemark

/-- The row of a line. -/
def Line.row (l : Line) (terminator : Terminator) : Bytes :=
  l.rowHead terminator ++ l.text ++ [lineFeed]

theorem Line.row_ne_nil (l : Line) (terminator : Terminator) : l.row terminator ≠ [] :=
  List.append_ne_nil_of_right_ne_nil _ (List.cons_ne_nil _ _)

theorem LineChar.row_ne_nil (c : LineChar) : c.row ≠ [] :=
  List.append_ne_nil_of_right_ne_nil _ (List.cons_ne_nil _ _)

namespace Sink

/-! ## Rows -/

/-- Writes one row of a listing, and counts it. -/
def listRow {α : Type} (row : α → Bytes) (state : Nat × Sink) (x : α) :
    Except Refused (Nat × Sink) := do
  return (state.1 + 1, ← state.2.writeAll (row x))

/-- Writing rows one by one is writing them all at once. -/
theorem foldlM_listRow {α : Type} (row : α → Bytes) (n : Nat) (s : Sink) (xs : List α) :
    xs.foldlM (listRow row) (n, s)
      = (s.writeAll (xs.flatMap row)).map fun t ↦ (n + xs.length, t) := by
  induction xs generalizing n s with
  | nil =>
    rw [List.flatMap_nil, writeAll_nil]
    rfl
  | cons x xs ih =>
    rw [List.foldlM_cons, List.flatMap_cons, ← writeAll_append, listRow]
    cases s.writeAll (row x) with
    | error refused => rfl
    | ok t =>
      change xs.foldlM (listRow row) (n + 1, t) = _
      rw [ih, List.length_cons, Nat.add_assoc, Nat.add_comm 1]
      rfl

theorem writeLine_eq (s : Sink) (l : Line) (terminator : Terminator) :
    s.writeLine l terminator = s.writeAll (l.row terminator) := by
  rw [Line.row, ← writeAll_append, ← writeAll_append]
  change (s.writeAll (l.rowHead terminator)).bind
    (fun t ↦ (t.writeAll l.text).bind fun u ↦ u.writeAll [lineFeed]) = _
  cases s.writeAll (l.rowHead terminator) with
  | error refused => rfl
  | ok t => rfl

/-! ## Whole listings -/

/-- **A listing by lines** writes the rows of the lines that are left, as far as they are taken. -/
theorem listLines_eq (s : Sink) {r : LineReader} (hr : r.input.Valid) :
    s.listLines r
      = (s.writeAll (r.ahead.flatMap fun l ↦ l.1.row l.2)).map fun t ↦ (r.ahead.length, t) := by
  have hrow : (fun (state : Nat × Sink) (l : Line × Terminator) ↦ do
      return (state.1 + 1, ← state.2.writeLine l.1 l.2)) = listRow fun l ↦ l.1.row l.2 := by
    funext state l
    rw [writeLine_eq]
    rfl
  have hfold := foldlM_listRow (fun l : Line × Terminator ↦ l.1.row l.2) 0 s r.ahead
  rw [← LineReader.foldLines_fst _ (0, s) hr, Nat.zero_add, ← hrow] at hfold
  rw [← hfold]
  change (r.foldLines (fun (state : Nat × Sink) (l : Line × Terminator) ↦ do
    return (state.1 + 1, ← state.2.writeLine l.1 l.2)) (0, s)).bind (fun x ↦ .ok x.1) = _
  generalize LineReader.foldLines _ (0, s) r = listed
  cases listed with
  | error refused => rfl
  | ok x => rfl

/-- **A listing by characters** writes the rows of the characters that are left, as far as they are
taken. -/
theorem listChars_eq (s : Sink) {r : CharReader} (hr : r.input.Valid) :
    s.listChars r
      = (s.writeAll (r.ahead.flatMap LineChar.row)).map fun t ↦ (r.ahead.length, t) := by
  have hfold := foldlM_listRow LineChar.row 0 s r.ahead
  rw [← CharReader.foldChars_fst _ (0, s) hr, Nat.zero_add] at hfold
  rw [← hfold]
  change (r.foldChars (listRow LineChar.row) (0, s)).bind (fun x ↦ .ok x.1) = _
  cases r.foldChars (listRow LineChar.row) (0, s) with
  | error refused => rfl
  | ok x => rfl

theorem listLines_of_unlimited {s : Sink} (hs : s.limit = none) {r : LineReader}
    (hr : r.input.Valid) :
    ∃ t, s.listLines r = .ok (r.ahead.length, t) ∧
      t.output = s.output ++ r.ahead.flatMap fun l ↦ l.1.row l.2 := by
  refine ⟨s.take (r.ahead.flatMap fun l ↦ l.1.row l.2), ?_, output_take_of_unlimited hs _⟩
  rw [listLines_eq s hr, writeAll_of_fits (fits_of_unlimited hs _)]
  rfl

theorem output_of_listLines {s t : Sink} (hs : s.limit = none) {r : LineReader}
    (hr : r.input.Valid) {n : Nat} (h : s.listLines r = .ok (n, t)) :
    t.output = s.output ++ r.ahead.flatMap fun l ↦ l.1.row l.2 := by
  obtain ⟨u, hu, houtput⟩ := listLines_of_unlimited hs hr
  obtain ⟨-, rfl⟩ := Prod.mk.inj (Except.ok.inj (hu.symm.trans h))
  exact houtput

theorem listChars_of_unlimited {s : Sink} (hs : s.limit = none) {r : CharReader}
    (hr : r.input.Valid) :
    ∃ t, s.listChars r = .ok (r.ahead.length, t) ∧
      t.output = s.output ++ r.ahead.flatMap LineChar.row := by
  refine ⟨s.take (r.ahead.flatMap LineChar.row), ?_, output_take_of_unlimited hs _⟩
  rw [listChars_eq s hr, writeAll_of_fits (fits_of_unlimited hs _)]
  rfl

theorem output_of_listChars {s t : Sink} (hs : s.limit = none) {r : CharReader}
    (hr : r.input.Valid) {n : Nat} (h : s.listChars r = .ok (n, t)) :
    t.output = s.output ++ r.ahead.flatMap LineChar.row := by
  obtain ⟨u, hu, houtput⟩ := listChars_of_unlimited hs hr
  obtain ⟨-, rfl⟩ := Prod.mk.inj (Except.ok.inj (hu.symm.trans h))
  exact houtput

end Sink

/-! ## Places -/

theorem utf8_place (filename : String) (line column : Nat) :
    utf8 (filename ++ ":" ++ Position.coordinates line column ++ ": ")
      = utf8 filename ++ 0x3A ::
        (utf8 (decimal line) ++ 0x3A :: (utf8 (decimal column) ++ 0x3A :: [0x20])) := by
  have hcolon : utf8 ":" = [0x3A] := by decide
  have hspace : utf8 ": " = [0x3A, 0x20] := by decide
  simp [Position.coordinates, hcolon, hspace]

/-- A place ends where it is shown to end: no shown place starts with another one. -/
theorem utf8_place_prefix_iff {filename : String} {line column line' column' : Nat} {rest : Bytes} :
    utf8 (filename ++ ":" ++ Position.coordinates line column ++ ": ") <+:
        utf8 (filename ++ ":" ++ Position.coordinates line' column' ++ ": ") ++ rest ↔
      line = line' ∧ column = column' := by
  have hrest : [0x20] <+: 0x20 :: rest := ⟨rest, rfl⟩
  rw [utf8_place, utf8_place, List.append_assoc, List.prefix_append_right_inj, List.cons_append,
    List.cons_prefix_cons, and_iff_right rfl]
  -- behind the name there are two numbers, each with a colon behind it
  rw [List.append_assoc, List.cons_append, utf8_decimal_append_prefix_iff, List.append_assoc,
    List.cons_append, utf8_decimal_append_prefix_iff]
  simp [hrest]

theorem Position.text_of_column {p : Position} (h : 1 ≤ p.column) :
    p.text = p.filename ++ ":" ++ coordinates p.line p.column := by
  rw [text, if_neg (Nat.one_le_iff_ne_zero.mp h)]

theorem LineChar.row_eq {c : LineChar} (h : 1 ≤ c.position.column) :
    c.row = utf8 (c.position.filename ++ ":" ++
      Position.coordinates c.position.line c.position.column ++ ": ") ++
        (c.kind.describe ++ [lineFeed]) := by
  rw [row, Position.text_of_column h, List.append_assoc]

end Linemark
