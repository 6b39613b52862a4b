import Linemark.Mark.Request
import Linemark.Proofs.Text.Numerals
import Mathlib.Data.List.TakeWhile

/-!
# The grammar of targets

A target is written as two numerals with a colon between them. Numerals have no colon, so a text can
be written like that in one way at most, and it does not matter that reading cuts it at the first
colon it meets. That matters for texts that are no targets: the error names the part that is at
fault, and what the parts are is settled by the first colon (`read_of_parts`).

Every text is `Written` as a target or `Blamed` for an error, and reading agrees with both. As no
text is read in two ways, these are then all the ways in which reading ends.
-/

namespace Linemark

/-! ## Reading targets

A line and a column, written as positions show them, are read back as a target, if neither is zero
or more than positions count up to. That no digit is a colon is all that keeps the two apart. -/

private theorem Position.toList_coordinates (line column : Nat) :
    (coordinates line column).toList
      = (decimal line).toList ++ ':' :: (decimal column).toList := by
  have hcolon : (":" : String).toList = [':'] := rfl
  rw [coordinates, String.toList_append, String.toList_append, hcolon, List.append_assoc]
  rfl

namespace Target

theorem splitAtColon?_append {before : List Char} (h : ':' ∉ before) (after : List Char) :
    splitAtColon? (before ++ ':' :: after) = some (before, after) := by
  rw [splitAtColon?, dropWhile_bne_append h, takeWhile_bne_append h]

/-- A number can be the number of a line or a column. -/
def IsCoordinate (n : Nat) : Prop := 1 ≤ n ∧ n ≤ Position.limit

instance (n : Nat) : Decidable (IsCoordinate n) :=
  inferInstanceAs (Decidable (1 ≤ n ∧ n ≤ Position.limit))

private theorem readCoordinate?_decimal (n : Nat) :
    readCoordinate? (decimal n).toList = if IsCoordinate n then some n else none := by
  have hbounds : (decide (0 < n) && decide (n ≤ Position.limit)) = true ↔ IsCoordinate n := by
    rw [Bool.and_eq_true, decide_eq_true_iff, decide_eq_true_iff]
    exact Iff.rfl
  rw [readCoordinate?, readDecimal?_decimal, Option.filter_some]
  by_cases hn : IsCoordinate n
  · rw [if_pos hn, if_pos (hbounds.mpr hn)]
  · rw [if_neg hn, if_neg fun h ↦ hn (hbounds.mp h)]

/-- Written coordinates are read back as the target that they are, and no others are read. -/
theorem read_coordinates_eq_ok_iff {line column : Nat} {t : Target} :
    read (Position.coordinates line column) = .ok t ↔
      IsCoordinate line ∧ IsCoordinate column ∧ t = ⟨line, column⟩ := by
  have hcolon : ':' ∉ (decimal line).toList :=
    fun h ↦ absurd (isDigit_of_mem_decimal h) (by decide)
  rw [read, Position.toList_coordinates, splitAtColon?_append hcolon]
  simp only [readCoordinate?_decimal]
  by_cases hline : IsCoordinate line
  · by_cases hcolumn : IsCoordinate column
    · simp [hline, hcolumn, eq_comm]
    · simp [hline, hcolumn]
  · simp [hline]

end Target

/-! ## The grammar -/

/-- Where every outcome that the rules allow is the one that there is, and they allow some outcome,
the rules say what the outcome is. -/
theorem eq_iff_of_total {α ε : Type} {result : Except ε α} {good : α → Prop} {bad : ε → Prop}
    (hgood : ∀ a, good a → result = .ok a) (hbad : ∀ e, bad e → result = .error e)
    (htotal : (∃ a, good a) ∨ ∃ e, bad e) :
    (∀ a, result = .ok a ↔ good a) ∧ ∀ e, result = .error e ↔ bad e := by
  rcases htotal with ⟨a, ha⟩ | ⟨e, he⟩
  · refine ⟨fun b ↦ ⟨fun hb ↦ ?_, hgood b⟩, fun e ↦ ⟨fun he ↦ ?_, hbad e⟩⟩
    · obtain rfl : a = b := Except.ok.inj ((hgood a ha).symm.trans hb)
      exact ha
    · cases (hgood a ha).symm.trans he
  · refine ⟨fun a ↦ ⟨fun ha ↦ ?_, hgood a⟩, fun f ↦ ⟨fun hf ↦ ?_, hbad f⟩⟩
    · cases (hbad e he).symm.trans ha
    · obtain rfl : e = f := Except.error.inj ((hbad e he).symm.trans hf)
      exact he

namespace Target

/-- A part of a text is the number of a line or a column: a numeral of a number that positions
have. -/
structure Coordinate (part : List Char) (n : Nat) : Prop where
  /-- The part is a way of writing the number. -/
  numeral : Numeral part n
  /-- The number is neither zero nor too large. -/
  isCoordinate : IsCoordinate n

/-- A text is a way of writing a target. -/
structure Written (text : String) (t : Target) : Prop where
  /-- It is a line and a column with a colon between them. -/
  parts : ∃ line column, text.toList = line ++ ':' :: column ∧
    Coordinate line t.line ∧ Coordinate column t.column

/-- What is wrong with a text. If there is a colon in it, the first one parts the line from the
column, and the column is at fault only if the line is not. -/
inductive Blamed (text : String) : TargetError → Prop
  /-- Nothing parts a line from a column. -/
  | noColon (hcolon : ':' ∉ text.toList) : Blamed text (.noColon text)
  /-- There is no line. -/
  | badLine {before after : List Char} (htext : text.toList = before ++ ':' :: after)
    (hbefore : ':' ∉ before) (hline : ∀ n, ¬Coordinate before n) :
    Blamed text (.badLine (String.ofList before) text)
  /-- There is a line, but no column. -/
  | badColumn {before after : List Char} {line : Nat} (htext : text.toList = before ++ ':' :: after)
    (hbefore : ':' ∉ before) (hline : Coordinate before line) (hcolumn : ∀ n, ¬Coordinate after n) :
    Blamed text (.badColumn (String.ofList after) text)

/-! ### Parts -/

variable {before after part : List Char} {text : String}

theorem readCoordinate?_eq_some_iff {n : Nat} :
    readCoordinate? part = some n ↔ Coordinate part n := by
  rw [readCoordinate?, Option.filter_eq_some_iff, readDecimal?_eq_some_iff]
  constructor
  · rintro ⟨hnumeral, hbounds⟩
    obtain ⟨hpos, hle⟩ : 0 < n ∧ n ≤ Position.limit := by simpa using hbounds
    exact ⟨hnumeral, hpos, hle⟩
  · rintro ⟨hnumeral, hpos, hle⟩
    have hpos' : 0 < n := hpos
    exact ⟨hnumeral, by simp [hpos', hle]⟩

theorem readCoordinate?_eq_none_iff : readCoordinate? part = none ↔ ∀ n, ¬Coordinate part n := by
  rw [Option.eq_none_iff_forall_ne_some]
  exact forall_congr' fun n ↦ not_congr readCoordinate?_eq_some_iff

private theorem Coordinate.colon_notMem {n : Nat} (h : Coordinate part n) : ':' ∉ part := by
  intro hcolon
  rcases h.numeral.isDigit_or_eq_plus hcolon with hdigit | hplus
  · exact absurd hdigit (by decide)
  · exact absurd hplus (by decide)

private theorem Coordinate.eq_of_append_eq {line column : Nat} (hline : Coordinate before line)
    (hcolumn : Coordinate after column) {before' after' : List Char}
    (h : before ++ ':' :: after = before' ++ ':' :: after') :
    before = before' ∧ after = after' := by
  refine (append_mark_inj hline.colon_notMem ?_).mp h
  intro hcolon
  -- a colon further ahead would leave the other one in the column
  obtain ⟨first, rest, rfl, hfirst⟩ := List.eq_append_cons_of_mem hcolon
  rw [List.append_assoc, List.cons_append, append_mark_inj hline.colon_notMem hfirst] at h
  refine hcolumn.colon_notMem ?_
  rw [h.2]
  simp

/-! ### Reading -/

private theorem read_of_notMem (hcolon : ':' ∉ text.toList) :
    read text = .error (.noColon text) := by
  rw [read, splitAtColon?, List.dropWhile_eq_nil_iff.mpr (forall_bne_of_notMem hcolon)]

private theorem read_of_parts (htext : text.toList = before ++ ':' :: after)
    (hbefore : ':' ∉ before) : read text =
      (readCoordinate? before).elim (.error (.badLine (String.ofList before) text)) fun line ↦
        (readCoordinate? after).elim (.error (.badColumn (String.ofList after) text)) fun column ↦
          .ok { line, column } := by
  rw [read, htext, splitAtColon?_append hbefore]
  dsimp only
  cases readCoordinate? before with
  | none => rfl
  | some line => cases readCoordinate? after <;> rfl

private theorem Written.read_eq {t : Target} (h : Written text t) : read text = .ok t := by
  obtain ⟨line, column, htext, hline, hcolumn⟩ := h.parts
  rw [read_of_parts htext hline.colon_notMem, readCoordinate?_eq_some_iff.mpr hline,
    readCoordinate?_eq_some_iff.mpr hcolumn, Option.elim_some, Option.elim_some]

private theorem Blamed.read_eq {e : TargetError} (h : Blamed text e) : read text = .error e := by
  cases h with
  | noColon hcolon => exact read_of_notMem hcolon
  | badLine htext hbefore hline =>
    rw [read_of_parts htext hbefore, readCoordinate?_eq_none_iff.mpr hline,
      Option.elim_none]
  | badColumn htext hbefore hline hcolumn =>
    rw [read_of_parts htext hbefore, readCoordinate?_eq_some_iff.mpr hline,
      readCoordinate?_eq_none_iff.mpr hcolumn, Option.elim_some, Option.elim_none]

/-- A text is a target, or something is wrong with it. -/
theorem exists_written_or_blamed (text : String) :
    (∃ t, Written text t) ∨ ∃ e, Blamed text e := by
  by_cases hcolon : ':' ∈ text.toList
  · obtain ⟨before, after, htext, hbefore⟩ := List.eq_append_cons_of_mem hcolon
    cases hline : readCoordinate? before with
    | none => exact .inr ⟨_, .badLine htext hbefore (readCoordinate?_eq_none_iff.mp hline)⟩
    | some line =>
      have hline := readCoordinate?_eq_some_iff.mp hline
      cases hcolumn : readCoordinate? after with
      | none =>
        exact .inr ⟨_, .badColumn htext hbefore hline (readCoordinate?_eq_none_iff.mp hcolumn)⟩
      | some column =>
        exact .inl ⟨⟨line, column⟩, before, after, htext, hline,
          readCoordinate?_eq_some_iff.mp hcolumn⟩
  · exact .inr ⟨_, .noColon hcolon⟩

private theorem read_iff (text : String) :
    (∀ t, read text = .ok t ↔ Written text t) ∧ ∀ e, read text = .error e ↔ Blamed text e :=
  eq_iff_of_total (fun _ ↦ Written.read_eq) (fun _ ↦ Blamed.read_eq) (exists_written_or_blamed text)

/-! ### Showing -/

theorem text_eq_iff {t : Target} (htext : text.toList = before ++ ':' :: after)
    (hline : Coordinate before t.line) (hcolumn : Coordinate after t.column) :
    t.text = text ↔ ∀ part ∈ [before, after], '+' ∉ part ∧ part.head? ≠ some '0' := by
  have hshown : ':' ∉ (decimal t.line).toList :=
    fun h ↦ absurd (isDigit_of_mem_decimal h) (by decide)
  rw [← String.toList_inj, Target.text, Position.toList_coordinates, htext,
    append_mark_inj hshown hline.colon_notMem, List.forall_mem_cons, List.forall_mem_singleton]
  exact and_congr (hline.numeral.toList_decimal_eq_iff hline.isCoordinate.1)
    (hcolumn.numeral.toList_decimal_eq_iff hcolumn.isCoordinate.1)

/-- **Reading follows the grammar.** A text is read as a target exactly if it is written as one, and
otherwise the error says what is wrong with it. What is shown of a target is read back, and it is
the text that was read exactly if neither part of that has a plus sign or a leading zero. -/
theorem read_follows_grammar :
    (∀ (text : String) (t : Target), read text = .ok t ↔ Written text t) ∧
    (∀ (text : String) (e : TargetError), read text = .error e ↔ Blamed text e) ∧
    (∀ t : Target, IsCoordinate t.line → IsCoordinate t.column → read t.text = .ok t) ∧
    ∀ (text : String) (t : Target) (line column : List Char), read text = .ok t →
      text.toList = line ++ ':' :: column →
        (t.text = text ↔ ∀ part ∈ [line, column], '+' ∉ part ∧ part.head? ≠ some '0') := by
  refine ⟨fun text ↦ (read_iff text).1, fun text ↦ (read_iff text).2,
    fun t hline hcolumn ↦ read_coordinates_eq_ok_iff.mpr ⟨hline, hcolumn, rfl⟩,
    fun text t line column hread htext ↦ ?_⟩
  obtain ⟨before, after, hparts, hline, hcolumn⟩ := (((read_iff text).1 t).mp hread).parts
  obtain ⟨rfl, rfl⟩ := hline.eq_of_append_eq hcolumn (hparts.symm.trans htext)
  exact text_eq_iff hparts hline hcolumn

/-- A target that is written with a plus sign and a leading zero, and not shown like that. -/
theorem read_follows_grammar_signed :
    Written "+03:14" ⟨3, 14⟩ ∧ IsCoordinate 3 ∧ IsCoordinate 14 ∧
      read "+03:14" = .ok ⟨3, 14⟩ ∧ read (Target.mk 3 14).text = .ok ⟨3, 14⟩ ∧
      (Target.mk 3 14).text ≠ "+03:14" := by
  have hdigits : IsDigits ['0', '3'] := ⟨by decide, by simp⟩
  have hdigits' : IsDigits ['1', '4'] := ⟨by decide, by simp⟩
  have hline : Numeral ['+', '0', '3'] 3 := .signed hdigits
  have hcolumn : Numeral ['1', '4'] 14 := .unsigned hdigits'
  have hwritten : Written "+03:14" ⟨3, 14⟩ :=
    ⟨['+', '0', '3'], ['1', '4'], rfl, ⟨hline, by decide⟩, ⟨hcolumn, by decide⟩⟩
  obtain ⟨hread, -, hshown, htext⟩ := read_follows_grammar
  have haccepted := (hread "+03:14" ⟨3, 14⟩).mpr hwritten
  refine ⟨hwritten, by decide, by decide, haccepted, hshown ⟨3, 14⟩ (by decide) (by decide), ?_⟩
  rw [Ne, htext "+03:14" ⟨3, 14⟩ ['+', '0', '3'] ['1', '4'] haccepted rfl]
  decide

end Target

end Linemark
