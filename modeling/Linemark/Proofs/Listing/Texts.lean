import Linemark.Proofs.Listing.Rows
import Linemark.Proofs.Mark.Conventions
import Linemark.Proofs.Text.Escaped
import Mathlib.Algebra.GroupWithZero.Nat

/-!
# What a listing by characters shows

A listing by characters shows the texts of the lines of an input and nothing else. That equal texts
are shown alike is known, since the characters of lines are made from the texts. The converse is
read off the listing in two steps. What is behind the place of a row is free of LF, so one row ends
where the next begins, and every row says what its character is
(`map_kind_eq_of_flatMap_row_eq`). And among these kinds there is an end behind every text
(`map_text_eq_of_flatMap_kinds_eq`).

Of the rows, everything behind the name of the input is printable, since bytes are shown escaped.
-/

namespace Linemark

/-! ## What is shown for a character -/

namespace CharKind

theorem isPrintable_of_mem_describe {kind : CharKind} {b : UInt8} (h : b ∈ kind.describe) :
    IsPrintable b := by
  cases kind with
  | content byte =>
    rw [describe, List.cons_append, List.mem_cons, List.mem_append, List.mem_singleton] at h
    rcases h with rfl | h | rfl
    · decide
    · exact isPrintable_of_mem_escaped h
    · decide
  | lineEnd =>
    have hall : ∀ b ∈ utf8 "end of line", IsPrintable b :=
      List.forall_iff_forall_mem.mp (by decide)
    exact hall b h

theorem lineFeed_notMem_describe (kind : CharKind) : lineFeed ∉ kind.describe :=
  fun h ↦ not_isPrintable_lineFeed (isPrintable_of_mem_describe h)

/-- A character is shown as no other one. A byte is in quotes, and the end of a line is not. -/
theorem describe_injective : Function.Injective describe := by
  have hend : ∀ byte, (content byte).describe ≠ lineEnd.describe := by
    intro byte h
    have hhead : (lineEnd.describe).head? = some 0x27 := by rw [← h]; rfl
    exact absurd hhead (by decide)
  intro kind kind' h
  cases kind with
  | content byte =>
    cases kind' with
    | content byte' =>
      rw [describe, describe, List.cons_append, List.cons_append] at h
      have hescaped := List.append_cancel_right (List.tail_eq_of_cons_eq h)
      rw [escaped_injective hescaped]
    | lineEnd => exact absurd h (hend byte)
  | lineEnd =>
    cases kind' with
    | content byte => exact absurd h.symm (hend byte)
    | lineEnd => rfl

end CharKind

/-! ## Rows -/

private theorem isPrintable_of_mem_utf8_decimal {n : Nat} {b : UInt8} (h : b ∈ utf8 (decimal n)) :
    IsPrintable b := by
  obtain ⟨hlow, hhigh⟩ := mem_utf8_decimal h
  exact ⟨UInt8.le_trans (by decide) hlow, UInt8.le_trans hhigh (by decide)⟩

namespace LineChar

variable {c d : LineChar}

/-- A row is printable behind the name of the input, up to its end. -/
theorem exists_row_eq (h : 1 ≤ c.position.column) :
    ∃ shown, c.row = utf8 c.position.filename ++ shown ++ [lineFeed] ∧
      ∀ b ∈ shown, IsPrintable b := by
  refine ⟨0x3A :: (utf8 (decimal c.position.line) ++
    0x3A :: (utf8 (decimal c.position.column) ++ 0x3A :: 0x20 :: c.kind.describe)), ?_, ?_⟩
  · rw [row_eq h, utf8_place]
    simp
  · intro b hb
    simp only [List.mem_cons, List.mem_append] at hb
    rcases hb with rfl | hb | rfl | hb | rfl | rfl | hb
    · decide
    · exact isPrintable_of_mem_utf8_decimal hb
    · decide
    · exact isPrintable_of_mem_utf8_decimal hb
    · decide
    · decide
    · exact CharKind.isPrintable_of_mem_describe hb

/-- **A row ends where it is shown to end**, and what is before its end says what its character
is. -/
theorem kind_eq_of_row_append_eq {bs cs : Bytes}
    (hfilename : c.position.filename = d.position.filename) (hc : 1 ≤ c.position.column)
    (hd : 1 ≤ d.position.column) (h : c.row ++ bs = d.row ++ cs) : c.kind = d.kind ∧ bs = cs := by
  rw [row_eq hc, row_eq hd, ← hfilename] at h
  simp only [List.append_assoc, List.singleton_append] at h
  obtain ⟨hline, hcolumn⟩ := utf8_place_prefix_iff.mp ⟨_, h⟩
  rw [hline, hcolumn, List.append_cancel_left_eq,
    append_mark_inj (CharKind.lineFeed_notMem_describe _)
      (CharKind.lineFeed_notMem_describe _)] at h
  exact ⟨CharKind.describe_injective h.1, h.2⟩

/-- Rows say what the characters are. -/
theorem map_kind_eq_of_flatMap_row_eq {filename : String} {cs ds : List LineChar}
    (hcs : ∀ c ∈ cs, c.position.filename = filename ∧ 1 ≤ c.position.column)
    (hds : ∀ d ∈ ds, d.position.filename = filename ∧ 1 ≤ d.position.column)
    (h : cs.flatMap row = ds.flatMap row) : cs.map kind = ds.map kind := by
  -- the first rows end at one place, and so do all after them
  induction cs generalizing ds with
  | nil =>
    cases ds with
    | nil => rfl
    | cons d ds => simp [row_ne_nil] at h
  | cons c cs ih =>
    cases ds with
    | nil => simp [row_ne_nil] at h
    | cons d ds =>
      obtain ⟨hc, hcs⟩ := List.forall_mem_cons.mp hcs
      obtain ⟨hd, hds⟩ := List.forall_mem_cons.mp hds
      rw [List.flatMap_cons, List.flatMap_cons] at h
      obtain ⟨hkind, hrest⟩ :=
        kind_eq_of_row_append_eq (hc.1.trans hd.1.symm) hc.2 hd.2 h
      rw [List.map_cons, List.map_cons, hkind, ih hcs hds hrest]

end LineChar

/-! ## Texts -/

/-- What the characters of a text and the end behind it are. -/
def RawLine.kinds (l : RawLine) : List CharKind := l.text.map .content ++ [.lineEnd]

theorem map_kind_charsAfter (filename : String) (n : Nat) (ls : List RawLine) :
    (charsAfter filename n ls).map LineChar.kind = ls.flatMap RawLine.kinds := by
  induction ls generalizing n with
  | nil => rfl
  | cons l ls ih =>
    rw [charsAfter, List.map_append, ih, List.flatMap_cons, Cursor.chars_start_eq_countedChars,
      Line.countedChars, RawLine.kinds, List.map_append]
    congr 2
    exact List.ext_getElem (by simp) fun i _ _ ↦ by simp

theorem length_charsAfter (filename : String) (n : Nat) (ls : List RawLine) :
    (charsAfter filename n ls).length = (ls.map fun l ↦ l.text.length + 1).sum := by
  rw [← List.length_map LineChar.kind, map_kind_charsAfter, List.length_flatMap]
  simp [RawLine.kinds]

/-- The ends of lines are told from their bytes, so the texts can be read off. -/
theorem map_text_eq_of_flatMap_kinds_eq {ls ms : List RawLine}
    (h : ls.flatMap RawLine.kinds = ms.flatMap RawLine.kinds) :
    ls.map RawLine.text = ms.map RawLine.text := by
  have hend : ∀ text : Bytes, CharKind.lineEnd ∉ text.map CharKind.content := by simp
  induction ls generalizing ms with
  | nil =>
    cases ms with
    | nil => rfl
    | cons m ms => simp [RawLine.kinds] at h
  | cons l ls ih =>
    cases ms with
    | nil => simp [RawLine.kinds] at h
    | cons m ms =>
      rw [List.flatMap_cons, List.flatMap_cons, RawLine.kinds, RawLine.kinds, List.append_assoc,
        List.append_assoc, List.singleton_append, List.singleton_append,
        append_mark_inj (hend _) (hend _)] at h
      have htext : l.text = m.text :=
        List.map_injective_iff.mpr (fun _ _ ↦ CharKind.content.inj) h.1
      rw [List.map_cons, List.map_cons, htext, ih h.2]

/-- A listing by characters determines the texts of the lines, and is determined by them. -/
theorem flatMap_row_charsAfter_eq_iff (filename : String) (n : Nat) {ls ms : List RawLine} :
    (charsAfter filename n ls).flatMap LineChar.row =
        (charsAfter filename n ms).flatMap LineChar.row
      ↔ ls.map RawLine.text = ms.map RawLine.text := by
  constructor
  · intro h
    have hkinds := LineChar.map_kind_eq_of_flatMap_row_eq
      (fun _ ↦ position_of_mem_charsAfter) (fun _ ↦ position_of_mem_charsAfter) h
    rw [map_kind_charsAfter, map_kind_charsAfter] at hkinds
    exact map_text_eq_of_flatMap_kinds_eq hkinds
  · intro h
    rw [charsAfter_congr h]

/-- **A listing by characters shows the texts of the lines** and nothing else. To a sink that takes
everything it has one row for each byte of a line and one for each end of a line, and every row is
printable behind the name of the input, whatever bytes the input has. Two inputs have the same
listing exactly if their lines have the same texts, however the lines end. -/
theorem Sink.listChars_shows_texts (filename : String) {s : Sink} (hs : s.limit = none) :
    (∀ source : Source,
      let rows := (CharReader.ofSource filename source).chars.1.map LineChar.row
      rows.length = ((RawLine.ofBytes source.delivered).map fun l ↦ l.text.length + 1).sum ∧
        (∃ t, s.listChars (.ofSource filename source) = .ok (rows.length, t) ∧
          t.output = s.output ++ rows.flatten) ∧
        ∀ row ∈ rows, ∃ shown, row = utf8 filename ++ shown ++ [lineFeed] ∧
          ∀ b ∈ shown, IsPrintable b) ∧
    ∀ (source other : Source) (n m : Nat) (t u : Sink),
      s.listChars (.ofSource filename source) = .ok (n, t) →
      s.listChars (.ofSource filename other) = .ok (m, u) →
        (t.output = u.output ↔ (RawLine.ofBytes source.delivered).map RawLine.text
          = (RawLine.ofBytes other.delivered).map RawLine.text) := by
  refine ⟨fun source ↦ ?_, fun source other n m t u ht hu ↦ ?_⟩
  · intro rows
    have hvalid := CharReader.valid_ofSource filename source
    have hrows : rows = (charsAfter filename 0 (RawLine.ofBytes source.delivered)).map
        LineChar.row := by
      rw [← CharReader.ahead_ofSource_eq, ← CharReader.chars_fst hvalid]
    have hlist := listChars_of_unlimited hs hvalid
    rw [CharReader.ahead_ofSource_eq] at hlist
    rw [hrows, List.length_map, ← List.flatMap_def]
    refine ⟨length_charsAfter _ _ _, hlist, fun row hrow ↦ ?_⟩
    obtain ⟨c, hc, rfl⟩ := List.mem_map.mp hrow
    obtain ⟨hname, hcolumn⟩ := position_of_mem_charsAfter hc
    rw [← hname]
    exact LineChar.exists_row_eq hcolumn
  · rw [output_of_listChars hs (CharReader.valid_ofSource filename source) ht,
      output_of_listChars hs (CharReader.valid_ofSource filename other) hu,
      CharReader.ahead_ofSource_eq, CharReader.ahead_ofSource_eq, List.append_cancel_left_eq,
      flatMap_row_charsAfter_eq_iff]

/-- A quote in inputs whose lines end differently, and behind a backslash. -/
theorem Sink.listChars_shows_texts_quoted :
    let source : Source := .ofBytes (utf8 "'\r\n")
    let other : Source := .ofBytes (utf8 "'")
    let escaped : Source := .ofBytes (utf8 "\\'")
    ∃ t u v, listChars {} (.ofSource "f" source) = .ok (2, t) ∧
      listChars {} (.ofSource "f" other) = .ok (2, u) ∧
      listChars {} (.ofSource "f" escaped) = .ok (3, v) ∧
      t.output = utf8 "f:1:1: '\\''\nf:1:2: end of line\n" ∧
      t.output = u.output ∧ t.output ≠ v.output := by
  intro source other escaped
  have hls : RawLine.ofBytes source.delivered = [⟨utf8 "'", .crlf⟩] :=
    RawLine.ofBytes_eq_of_join_eq (by decide) (by decide)
  have hms : RawLine.ofBytes other.delivered = [⟨utf8 "'", .eof⟩] :=
    RawLine.ofBytes_eq_of_join_eq (by decide) (by decide)
  have hks : RawLine.ofBytes escaped.delivered = [⟨utf8 "\\'", .eof⟩] :=
    RawLine.ofBytes_eq_of_join_eq (by decide) (by decide)
  obtain ⟨hlist, hequal⟩ := listChars_shows_texts "f" (s := {}) rfl
  obtain ⟨hlength, ⟨t, ht, htoutput⟩, -⟩ := hlist source
  obtain ⟨hlength', ⟨u, hu, -⟩, -⟩ := hlist other
  obtain ⟨hlength'', ⟨v, hv, -⟩, -⟩ := hlist escaped
  rw [hlength, hls] at ht
  rw [hlength', hms] at hu
  rw [hlength'', hks] at hv
  refine ⟨t, u, v, ht, hu, hv, ?_, ?_, ?_⟩
  · rw [htoutput, CharReader.chars_ofSource "f" (by rw [hls]; decide), hls]
    decide
  · rw [hequal source other 2 2 t u ht hu, hls, hms]
    rfl
  · rw [Ne, hequal source escaped 2 3 t v ht hv, hls, hks]
    decide

end Linemark
