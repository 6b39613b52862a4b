import Linemark.Proofs.Line.Characters

/-!
# Coordinates of characters

Which line and column a character has, and which lines and columns have a character. The columns
of a line with `n` bytes are one to `n + 1` (`Line.position_getElem_chars`), the lines of an input
are numbered from one, and so the characters of an input stand in the strict order of their
positions (`pairwise_charsOf`). No two of them share a line and a column, and to find one it is
enough to look for its coordinates.
-/

namespace Linemark

/-! ## Characters of one line -/

namespace Line

@[simp] theorem length_chars (l : Line) : l.chars.length = l.text.length + 1 := by
  simp [chars]

private theorem position_getElem_chars (l : Line) {i : Nat} (h : i < l.chars.length) :
    l.chars[i].position = { l.position with column := i + 1 } := by
  rw [length_chars] at h
  rcases Nat.lt_succ_iff_lt_or_eq.mp h with hlt | rfl
  · simp [chars, hlt]
  · simp [chars]

private theorem position_of_mem_chars {l : Line} {c : LineChar} (h : c ∈ l.chars) :
    c.position.filename = l.position.filename ∧ c.position.line = l.position.line := by
  obtain ⟨i, hi, rfl⟩ := List.getElem_of_mem h
  rw [position_getElem_chars]
  exact ⟨rfl, rfl⟩

private theorem text_of_mem_chars {l : Line} {c : LineChar} (h : c ∈ l.chars) :
    c.text = l.text := by
  rw [chars, List.mem_append, List.mem_mapIdx, List.mem_singleton] at h
  rcases h with ⟨i, hi, rfl⟩ | rfl
  · rfl
  · rfl

private theorem pairwise_chars (l : Line) :
    l.chars.Pairwise fun c d ↦ c.position.isBefore d.position = true := by
  rw [List.pairwise_iff_getElem]
  intro i j hi hj hij
  rw [Position.isBefore_iff, position_getElem_chars, position_getElem_chars]
  exact .inr ⟨rfl, Nat.succ_lt_succ hij⟩

private theorem exists_mem_chars_iff {l : Line} {m : Nat} :
    (∃ c ∈ l.chars, c.position.column = m) ↔ 1 ≤ m ∧ m ≤ l.text.length + 1 := by
  constructor
  · rintro ⟨c, hc, rfl⟩
    obtain ⟨i, hi, rfl⟩ := List.getElem_of_mem hc
    rw [position_getElem_chars]
    rw [length_chars] at hi
    exact ⟨Nat.le_add_left 1 i, hi⟩
  · rintro ⟨hpos, hle⟩
    have hi : m - 1 < l.chars.length := by
      rw [length_chars]
      omega
    refine ⟨l.chars[m - 1], List.getElem_mem hi, ?_⟩
    rw [position_getElem_chars]
    exact Nat.sub_add_cancel hpos

end Line

/-! ## Characters of an input -/

private theorem getElem?_numbered (filename : String) (n : Nat) (ls : List RawLine) (i : Nat) :
    (numbered filename n ls)[i]? = ls[i]?.map fun l ↦ ⟨⟨filename, n + i, 0⟩, l.text⟩ := by
  induction ls generalizing n i with
  | nil => rfl
  | cons l ls ih =>
    cases i with
    | zero => rfl
    | succ i =>
      rw [numbered, List.getElem?_cons_succ, ih, List.getElem?_cons_succ]
      simp only [Nat.add_assoc, Nat.add_comm 1]

theorem mem_numbered_iff {filename : String} {n : Nat} {ls : List RawLine} {m : Line} :
    m ∈ numbered filename n ls ↔
      ∃ i l, ls[i]? = some l ∧ ⟨⟨filename, n + i, 0⟩, l.text⟩ = m := by
  rw [List.mem_iff_getElem?]
  simp only [getElem?_numbered, Option.map_eq_some_iff]

theorem pairwise_numbered (filename : String) (n : Nat) (ls : List RawLine) :
    (numbered filename n ls).Pairwise fun l m ↦ l.position.line < m.position.line := by
  induction ls generalizing n with
  | nil => exact .nil
  | cons l ls ih =>
    refine .cons (fun m hm ↦ ?_) (ih (n + 1))
    obtain ⟨i, l', -, rfl⟩ := mem_numbered_iff.mp hm
    exact Nat.lt_of_lt_of_le (Nat.lt_succ_self n) (Nat.le_add_right (n + 1) i)

theorem filename_of_mem_charsOf {filename : String} {ls : List RawLine} {c : LineChar}
    (h : c ∈ charsOf filename ls) : c.position.filename = filename := by
  obtain ⟨m, hm, hc⟩ := List.mem_flatMap.mp h
  obtain ⟨i, l, -, rfl⟩ := mem_numbered_iff.mp hm
  exact (Line.position_of_mem_chars hc).1

theorem filename_eq_of_mem_charsOf {filename : String} {ls : List RawLine} {c d : LineChar}
    (hc : c ∈ charsOf filename ls) (hd : d ∈ charsOf filename ls) :
    c.position.filename = d.position.filename :=
  (filename_of_mem_charsOf hc).trans (filename_of_mem_charsOf hd).symm

/-- The characters of an input stand in the order of their positions. -/
theorem pairwise_charsOf (filename : String) (ls : List RawLine) :
    (charsOf filename ls).Pairwise fun c d ↦ c.position.isBefore d.position = true := by
  rw [charsOf, List.pairwise_flatMap]
  refine ⟨fun l _ ↦ l.pairwise_chars, (pairwise_numbered filename 1 ls).imp ?_⟩
  -- on different lines the columns do not matter
  intro l m hlt c hc d hd
  rw [Position.isBefore_iff, (Line.position_of_mem_chars hc).2, (Line.position_of_mem_chars hd).2]
  exact .inl hlt

theorem nodup_charsOf (filename : String) (ls : List RawLine) : (charsOf filename ls).Nodup := by
  refine (pairwise_charsOf filename ls).imp fun {c d} h hcd ↦ ?_
  subst hcd
  have := Position.isBefore_iff.mp h
  omega

theorem eq_of_mem_charsOf {filename : String} {ls : List RawLine} {c d : LineChar}
    (hc : c ∈ charsOf filename ls) (hd : d ∈ charsOf filename ls)
    (hline : c.position.line = d.position.line)
    (hcolumn : c.position.column = d.position.column) : c = d := by
  obtain ⟨i, hi, rfl⟩ := List.getElem_of_mem hc
  obtain ⟨j, hj, rfl⟩ := List.getElem_of_mem hd
  -- at two indices, one of them would be before the other
  have hbefore := List.pairwise_iff_getElem.mp (pairwise_charsOf filename ls)
  rcases Nat.lt_trichotomy i j with hij | rfl | hji
  · have := Position.isBefore_iff.mp (hbefore i j hi hj hij)
    omega
  · rfl
  · have := Position.isBefore_iff.mp (hbefore j i hj hi hji)
    omega

/-- **The coordinates of an input**: the numbers of its lines, and on each the columns of its bytes
and one more. -/
theorem exists_mem_charsOf_iff {filename : String} {ls : List RawLine} {n m : Nat} :
    (∃ c ∈ charsOf filename ls, c.position.line = n ∧ c.position.column = m) ↔
      1 ≤ n ∧ 1 ≤ m ∧ ∃ l ∈ ls[n - 1]?, m ≤ l.text.length + 1 := by
  constructor
  · rintro ⟨c, hc, rfl, rfl⟩
    obtain ⟨l, hl, hcl⟩ := List.mem_flatMap.mp hc
    obtain ⟨i, l', hi, rfl⟩ := mem_numbered_iff.mp hl
    obtain ⟨hpos, hle⟩ := Line.exists_mem_chars_iff.mp ⟨c, hcl, rfl⟩
    rw [(Line.position_of_mem_chars hcl).2]
    refine ⟨Nat.le_add_right 1 i, hpos, l', ?_, hle⟩
    rwa [Nat.add_sub_cancel_left]
  · rintro ⟨hn, hm, l, hl, hle⟩
    obtain ⟨c, hc, hcolumn⟩ :=
      Line.exists_mem_chars_iff (l := ⟨⟨filename, 1 + (n - 1), 0⟩, l.text⟩).mpr ⟨hm, hle⟩
    refine ⟨c, List.mem_flatMap.mpr ⟨_, mem_numbered_iff.mpr ⟨n - 1, l, hl, rfl⟩, hc⟩, ?_, hcolumn⟩
    rw [(Line.position_of_mem_chars hc).2]
    exact Nat.add_sub_of_le hn

/-- A character is on a line: it has its text, and one of its columns. -/
structure LineChar.IsOn (c : LineChar) (text : Bytes) : Prop where
  /-- The character carries the text. -/
  text_eq : c.text = text
  /-- Columns count from one. -/
  one_le_column : 1 ≤ c.position.column
  /-- The end of the line is the last column. -/
  column_le : c.position.column ≤ text.length + 1

theorem exists_isOn_of_mem_charsOf {filename : String} {ls : List RawLine} {c : LineChar}
    (h : c ∈ charsOf filename ls) :
    ∃ l, ls[c.position.line - 1]? = some l ∧ c.IsOn l.text := by
  obtain ⟨m, hm, hc⟩ := List.mem_flatMap.mp h
  obtain ⟨i, l, hl, rfl⟩ := mem_numbered_iff.mp hm
  obtain ⟨hpos, hle⟩ := Line.exists_mem_chars_iff.mp ⟨c, hc, rfl⟩
  refine ⟨l, ?_, Line.text_of_mem_chars hc, hpos, hle⟩
  rw [(Line.position_of_mem_chars hc).2, Nat.add_sub_cancel_left]
  exact hl

theorem text_eq_of_mem_charsOf {filename : String} {ls : List RawLine} {c d : LineChar}
    (hc : c ∈ charsOf filename ls) (hd : d ∈ charsOf filename ls)
    (hline : c.position.line = d.position.line) : c.text = d.text := by
  obtain ⟨l, hl, hon⟩ := exists_isOn_of_mem_charsOf hc
  obtain ⟨m, hm, hon'⟩ := exists_isOn_of_mem_charsOf hd
  rw [hline, hm] at hl
  obtain rfl := Option.some.inj hl
  rw [hon.text_eq, hon'.text_eq]

theorem one_le_column_of_mem_charsOf {filename : String} {ls : List RawLine} {c : LineChar}
    (h : c ∈ charsOf filename ls) : 1 ≤ c.position.column :=
  (exists_mem_charsOf_iff.mp ⟨c, h, rfl, rfl⟩).2.1

end Linemark
