import Linemark.Proofs.Listing.Rows
import Linemark.Proofs.Text.Numerals
import Mathlib.Data.List.Basic

/-!
# Reading a listing by lines back

A listing by lines holds its input: it can be read back by whoever knows the name of the input. A
row is read from the left. The position is known beforehand, since rows are numbered; the name of
the terminator ends at the first bracket, the text at the first LF; so what a text looks like does
not matter, be it another row.

`RawLine.ofRow?` reads one row off the start of a listing, `RawLine.ofListing?` reads one row after
the other, and joining the lines gives the input (`recover?`). That this undoes listing is proved
for one row with anything behind it (`RawLine.ofRow?_row_append`), then for all rows by the
recursion that numbers them.
-/

namespace Linemark

/-! ## Cutting at a mark -/

/-- What is before the first byte of a kind, and what is after it. -/
def cutAt? (mark : UInt8) (bs : Bytes) : Option (Bytes × Bytes) :=
  match bs.dropWhile (· != mark) with
  | [] => none
  | _ :: after => some (bs.takeWhile (· != mark), after)

private theorem cutAt?_append {mark : UInt8} {before : Bytes} (h : mark ∉ before) (after : Bytes) :
    cutAt? mark (before ++ mark :: after) = some (before, after) := by
  rw [cutAt?, dropWhile_bne_append h, takeWhile_bne_append h]

private theorem length_lt_of_cutAt? {mark : UInt8} {bs before after : Bytes}
    (h : cutAt? mark bs = some (before, after)) : after.length < bs.length := by
  have hle := (List.dropWhile_suffix (l := bs) (· != mark)).length_le
  fun_cases cutAt? mark bs with
  | case1 hnil => simp [cutAt?, hnil] at h
  | case2 b rest hcons =>
    obtain ⟨-, rfl⟩ : bs.takeWhile (· != mark) = before ∧ rest = after := by
      simpa [cutAt?, hcons] using h
    rw [hcons] at hle
    exact hle

/-! ## Rows -/

/-- The terminator with a name. -/
def Terminator.ofName? (name : Bytes) : Option Terminator :=
  [lf, cr, crlf, eof].find? fun t ↦ utf8 t.name == name

theorem Terminator.ofName?_name (t : Terminator) : ofName? (utf8 t.name) = some t := by
  cases t <;> decide

private theorem Terminator.bracket_notMem_name (t : Terminator) : (0x5D : UInt8) ∉ utf8 t.name := by
  cases t <;> decide

namespace RawLine

/-- Reads the row of the line at a position off the start of a listing. Gives the line, and what
comes after the row. -/
def ofRow? (position : Position) (listing : Bytes) : Option (RawLine × Bytes) := do
  let named ← listing.dropPrefix? (utf8 (position.text ++ ": ["))
  let (name, rest) ← cutAt? 0x5D named
  let terminator ← Terminator.ofName? name
  let rest ← rest.dropPrefix? [0x20]
  let (text, after) ← cutAt? lineFeed rest
  return (⟨text, terminator⟩, after)

/-- **A row is read back**, whatever comes after it. -/
theorem ofRow?_row_append {l : Line} (h : Unbroken l.text) (t : Terminator) (after : Bytes) :
    ofRow? l.position (l.row t ++ after) = some (⟨l.text, t⟩, after) := by
  have hbracket : utf8 "] " = [0x5D, 0x20] := by decide
  have htext : lineFeed ∉ l.text := fun hmem ↦ absurd (h lineFeed hmem) (by decide)
  have hrow : l.row t ++ after = utf8 (l.position.text ++ ": [") ++
      (utf8 t.name ++ 0x5D :: ([0x20] ++ (l.text ++ lineFeed :: after))) := by
    simp [Line.row, Line.rowHead, hbracket]
  rw [hrow, ofRow?, List.dropPrefix?_append_of_beq _ (beq_self_eq_true _)]
  simp only [Option.bind_eq_bind, Option.bind_some]
  rw [cutAt?_append t.bracket_notMem_name]
  simp only [Option.bind_some]
  rw [Terminator.ofName?_name, Option.bind_some,
    List.dropPrefix?_append_of_beq _ (beq_self_eq_true _), Option.bind_some, cutAt?_append htext]
  rfl

private theorem length_lt_of_ofRow? {position : Position} {listing after : Bytes} {l : RawLine}
    (h : ofRow? position listing = some (l, after)) : after.length < listing.length := by
  simp only [ofRow?, Option.bind_eq_bind, Option.bind_eq_some_iff, List.dropPrefix?_eq_some_iff,
    Option.pure_def, Option.some.injEq, Prod.exists, Prod.mk.injEq] at h
  obtain ⟨_, ⟨_, rfl, -⟩, _, _, hname, _, -, _, ⟨_, rfl, -⟩, _, _, htext, -, rfl⟩ := h
  have hname := length_lt_of_cutAt? hname
  have htext := length_lt_of_cutAt? htext
  rw [List.length_append] at hname ⊢
  omega

/-! ## Listings -/

/-- Reads the lines that follow a line with the given number back from their listing. -/
def ofListing? (filename : String) (n : Nat) (listing : Bytes) : Option (List RawLine) :=
  if listing = [] then some []
  else
    match _h : ofRow? ⟨filename, Position.following n, 0⟩ listing with
    | none => none
    | some (l, after) => (ofListing? filename (Position.following n) after).map (l :: ·)
termination_by listing.length
decreasing_by exact length_lt_of_ofRow? _h

/-- The lines of a listing are read back. -/
theorem ofListing?_flatMap_row {ls : List RawLine} (h : ∀ l ∈ ls, Unbroken l.text)
    (filename : String) (n : Nat) :
    ofListing? filename n ((linesAfter filename n ls).flatMap fun l ↦ l.1.row l.2) = some ls := by
  -- the rows are numbered as they are read
  induction ls generalizing n with
  | nil => rw [linesAfter, List.flatMap_nil, ofListing?, if_pos rfl]
  | cons l ls ih =>
    have hrow := ofRow?_row_append (l := ⟨⟨filename, Position.following n, 0⟩, l.text⟩)
      (h l List.mem_cons_self) l.terminator
    have hls : ∀ m ∈ ls, Unbroken m.text := fun m hm ↦ h m (List.mem_cons_of_mem l hm)
    rw [linesAfter, List.flatMap_cons, ofListing?, if_neg]
    · split
      next hnone => rw [hrow] at hnone; cases hnone
      next m after hsome =>
        rw [hrow] at hsome
        obtain ⟨rfl, rfl⟩ := Prod.mk.inj (Option.some.inj hsome)
        rw [ih hls, Option.map_some]
    · exact List.append_ne_nil_of_left_ne_nil (Line.row_ne_nil _ _) _

end RawLine

/-- Reads an input back from its listing by lines. -/
def recover? (filename : String) (listing : Bytes) : Option Bytes :=
  (RawLine.ofListing? filename 0 listing).map RawLine.join

/-- A listing by lines is read back as its input. -/
theorem recover?_flatMap_row (filename : String) (input : Bytes) :
    recover? filename ((linesAfter filename 0 (RawLine.ofBytes input)).flatMap
      fun l ↦ l.1.row l.2) = some input := by
  have hunbroken : ∀ l ∈ RawLine.ofBytes input, Unbroken l.text := fun l hl ↦
    ((RawLine.wellFormed_ofBytes input).proper l hl).unbroken
  rw [recover?, RawLine.ofListing?_flatMap_row hunbroken, Option.map_some, RawLine.join_ofBytes]

/-! ## Inputs and their listings -/

/-- The rows of the lines of an input: the position, the name of the terminator in brackets, and the
bytes of the line. -/
theorem map_row_linesAfter (filename : String) (ls : List RawLine) :
    (linesAfter filename 0 ls).map (fun l ↦ l.1.row l.2) = ls.mapIdx fun i l ↦
      utf8 (filename ++ ":" ++ decimal (min (i + 1) Position.limit) ++ ": [" ++
        l.terminator.name ++ "] ") ++ l.text ++ [lineFeed] := by
  refine List.ext_getElem? fun i ↦ ?_
  rw [List.getElem?_map, getElem?_linesAfter (Nat.zero_le _), List.getElem?_mapIdx, Option.map_map,
    Nat.zero_add]
  rfl

/-- **A listing by lines loses nothing.** To a sink that takes everything it has one row for each
line: the position, the name of the terminator in brackets, and the bytes of the line; and the input
is read back from these rows, whatever the texts of its lines look like. So two inputs have the same
listing exactly if they are the same. -/
theorem Sink.listLines_lossless (filename : String) {s : Sink} (hs : s.limit = none) :
    (∀ source : Source,
      let rows := (RawLine.ofBytes source.delivered).mapIdx fun i l ↦
        utf8 (filename ++ ":" ++ decimal (min (i + 1) Position.limit) ++ ": [" ++
          l.terminator.name ++ "] ") ++ l.text ++ [lineFeed]
      rows.length = (RawLine.ofBytes source.delivered).length ∧
        (∃ t, s.listLines (.ofSource filename source) = .ok (rows.length, t) ∧
          t.output = s.output ++ rows.flatten) ∧
        recover? filename rows.flatten = some source.delivered) ∧
    ∀ (source other : Source) (n m : Nat) (t u : Sink),
      s.listLines (.ofSource filename source) = .ok (n, t) →
      s.listLines (.ofSource filename other) = .ok (m, u) →
        (t.output = u.output ↔ source.delivered = other.delivered) := by
  refine ⟨fun source ↦ ?_, fun source other n m t u ht hu ↦ ?_⟩
  · intro rows
    have hlength : rows.length = (RawLine.ofBytes source.delivered).length := List.length_mapIdx
    have hrows : rows.flatten = (linesAfter filename 0
        (RawLine.ofBytes source.delivered)).flatMap fun l ↦ l.1.row l.2 := by
      rw [List.flatMap_def, map_row_linesAfter]
    have hlist := listLines_of_unlimited hs (LineReader.valid_ofSource filename source)
    rw [LineReader.ahead_ofSource, length_linesAfter] at hlist
    rw [hlength, hrows]
    exact ⟨rfl, hlist, recover?_flatMap_row filename source.delivered⟩
  · rw [output_of_listLines hs (LineReader.valid_ofSource filename source) ht,
      output_of_listLines hs (LineReader.valid_ofSource filename other) hu,
      LineReader.ahead_ofSource, LineReader.ahead_ofSource, List.append_cancel_left_eq]
    constructor
    · intro h
      have hread := congrArg (recover? filename) h
      rw [recover?_flatMap_row, recover?_flatMap_row] at hread
      exact Option.some.inj hread
    · intro h
      rw [h]

/-- Two inputs that differ in their last byte, a line break. The first line looks like a row, and
the second like the name of a terminator. -/
theorem Sink.listLines_lossless_misleading :
    let source : Source := .ofBytes (utf8 "f:2: [CR] \n[LF]")
    let other : Source := .ofBytes (utf8 "f:2: [CR] \n[LF]\n")
    ∃ t u, listLines {} (.ofSource "f" source) = .ok (2, t) ∧
      listLines {} (.ofSource "f" other) = .ok (2, u) ∧
      t.output = utf8 "f:1: [LF] f:2: [CR] \nf:2: [EOF] [LF]\n" ∧
      recover? "f" t.output = some source.delivered ∧ t.output ≠ u.output := by
  intro source other
  have hls : RawLine.ofBytes source.delivered
      = [⟨utf8 "f:2: [CR] ", .lf⟩, ⟨utf8 "[LF]", .eof⟩] :=
    RawLine.ofBytes_eq_of_join_eq (by decide) (by decide)
  have hms : RawLine.ofBytes other.delivered
      = [⟨utf8 "f:2: [CR] ", .lf⟩, ⟨utf8 "[LF]", .lf⟩] :=
    RawLine.ofBytes_eq_of_join_eq (by decide) (by decide)
  obtain ⟨hlist, hequal⟩ := listLines_lossless "f" (s := {}) rfl
  obtain ⟨-, ⟨t, ht, htoutput⟩, hread⟩ := hlist source
  obtain ⟨-, ⟨u, hu, -⟩, -⟩ := hlist other
  rw [List.length_mapIdx, hls] at ht
  rw [List.length_mapIdx, hms] at hu
  have houtput : t.output = utf8 "f:1: [LF] f:2: [CR] \nf:2: [EOF] [LF]\n" := by
    rw [htoutput, hls]
    decide
  refine ⟨t, u, ht, hu, houtput, ?_, ?_⟩
  · rw [htoutput]
    exact hread
  · rw [Ne, hequal source other 2 2 t u ht hu]
    decide

end Linemark
