import Linemark.Proofs.Text.Encoding
import Mathlib.Data.Nat.Find

/-!
# What is shown of a line

`display` reads a line from the left. What it shows does not depend on that: the byte at an index is
kept exactly if some encoding covers the index, wherever in the line that encoding is
(`getElem?_display`). `IsEncoded` says so without reading anything, and the two agree because
encodings do not overlap: neither an encoding nor a stray byte that was read can be part of an
encoding further on.

A second way of reading, `repaired`, is that of a decoder that knows whole texts only. It is told
how far a line is a text and how many bytes are bad from there on, replaces these and starts again
behind them. It may replace several bytes at once, and it is not obvious that none of them begins an
encoding. They are the beginning of one that is broken off, so all of them but the first go on with
an encoding and begin none (`display_append_of_isUnfinished`); both ways show the same
(`repaired_eq_display`).
-/

namespace Linemark

variable {e bs rest : Bytes} {i : Nat}

/-! ## Reading from the left -/

private theorem displayFrom_eq_append (kept : Nat) (shown : Array UInt8) (bs : Bytes) :
    (displayFrom kept shown bs).toList = shown.toList ++ (displayFrom kept #[] bs).toList := by
  induction bs generalizing kept shown with
  | nil => simp [displayFrom]
  | cons b rest ih =>
    -- one more byte is shown, whichever it is
    have hpush : ∀ (kept : Nat) (shown : Array UInt8) (b : UInt8),
        (displayFrom kept (shown.push b) rest).toList
          = shown.toList ++ (displayFrom kept (#[].push b) rest).toList := by
      intro kept shown b
      rw [ih, ih kept (#[].push b), ← List.append_assoc]
      simp
    cases kept with
    | succ n =>
      rw [displayFrom, displayFrom]
      exact hpush n shown b
    | zero =>
      rw [displayFrom, displayFrom]
      cases scalarLength (b :: rest) with
      | zero => exact hpush 0 shown replacement
      | succ n => exact hpush n shown b

private theorem displayFrom_length (t rest : Bytes) :
    (displayFrom t.length #[] (t ++ rest)).toList = t ++ display rest := by
  induction t with
  | nil => rfl
  | cons b t ih =>
    rw [List.length_cons, List.cons_append, displayFrom, displayFrom_eq_append, ih]
    rfl

@[simp] theorem display_nil : display [] = [] := rfl

/-- An encoding is kept, and what is behind it is shown as if it stood alone. -/
theorem display_append_of_isScalar (h : IsScalar e) (rest : Bytes) :
    display (e ++ rest) = e ++ display rest := by
  have hlength := scalarLength_append h rest
  cases e with
  | nil => exact absurd rfl h.ne_nil
  | cons b t =>
    rw [List.cons_append] at hlength ⊢
    rw [display, displayFrom, hlength, List.length_cons]
    change (displayFrom t.length (#[].push b) (t ++ rest)).toList = _
    rw [displayFrom_eq_append, displayFrom_length]
    rfl

/-- A stray byte is replaced, and what is behind it is shown as if it stood alone. -/
theorem display_cons_of_scalarLength_eq {b : UInt8} (h : scalarLength (b :: rest) = 0) :
    display (b :: rest) = replacement :: display rest := by
  rw [display, displayFrom, h]
  change (displayFrom 0 (#[].push replacement) rest).toList = _
  rw [displayFrom_eq_append]
  rfl

/-- Every line is encodings and stray bytes, one after the other. -/
@[elab_as_elim]
theorem display_induction {motive : Bytes → Prop} (nil : motive [])
    (scalar : ∀ e rest, IsScalar e → motive rest → motive (e ++ rest))
    (stray : ∀ b rest, scalarLength (b :: rest) = 0 → motive rest → motive (b :: rest))
    (bs : Bytes) : motive bs := by
  cases bs with
  | nil => exact nil
  | cons b rest =>
    by_cases h : scalarLength (b :: rest) = 0
    · exact stray b rest h (display_induction nil scalar stray rest)
    · obtain ⟨e, rest', he, heq⟩ := exists_isScalar_of_scalarLength_ne h
      have hlt : rest'.length < (b :: rest).length := by
        rw [heq, List.length_append]
        exact Nat.lt_add_of_pos_left he.length_pos
      rw [heq]
      exact scalar e rest' he (display_induction nil scalar stray rest')
termination_by bs.length
decreasing_by
  · exact Nat.lt_succ_self rest.length
  · exact hlt

/-! ## Places inside an encoding -/

/-- Some encoding in the line covers the index. -/
def IsEncoded (bs : Bytes) (i : Nat) : Prop :=
  ∃ start e, IsScalar e ∧ e <+: bs.drop start ∧ start ≤ i ∧ i < start + e.length

private theorem isEncoded_iff_exists_scalarLength :
    IsEncoded bs i ↔ ∃ start ∈ List.range (i + 1), i < start + scalarLength (bs.drop start) := by
  constructor
  · rintro ⟨start, e, he, ⟨rest, heq⟩, hstart, hend⟩
    refine ⟨start, List.mem_range.mpr (Nat.lt_succ_of_le hstart), ?_⟩
    rwa [← heq, scalarLength_append he]
  · rintro ⟨start, hstart, hend⟩
    have hle : start ≤ i := Nat.le_of_lt_succ (List.mem_range.mp hstart)
    have hne : scalarLength (bs.drop start) ≠ 0 := by omega
    obtain ⟨e, rest, he, heq⟩ := exists_isScalar_of_scalarLength_ne hne
    rw [heq, scalarLength_append he] at hend
    exact ⟨start, e, he, ⟨rest, heq.symm⟩, hle, hend⟩

instance (bs : Bytes) (i : Nat) : Decidable (IsEncoded bs i) :=
  decidable_of_iff' _ isEncoded_iff_exists_scalarLength

private theorem isEncoded_append_of_lt (h : IsScalar e) (hi : i < e.length) :
    IsEncoded (e ++ rest) i := by
  refine ⟨0, e, h, List.prefix_append e rest, Nat.zero_le i, ?_⟩
  rwa [Nat.zero_add]

private theorem isEncoded_append_iff (h : IsScalar e) :
    IsEncoded (e ++ rest) (e.length + i) ↔ IsEncoded rest i := by
  constructor
  · rintro ⟨start, e', he', hbegins, hstart, hend⟩
    by_cases hinside : start < e.length
    · -- then it is the encoding in front, which does not reach so far
      obtain ⟨rfl, rfl⟩ := h.eq_of_overlap he' hinside hbegins
      omega
    · refine ⟨start - e.length, e', he', ?_, by omega, by omega⟩
      rwa [List.drop_append, List.drop_eq_nil_of_le (by omega), List.nil_append] at hbegins
  · rintro ⟨start, e', he', hbegins, hstart, hend⟩
    refine ⟨e.length + start, e', he', ?_, by omega, by omega⟩
    rwa [List.drop_append, List.drop_eq_nil_of_le (by omega), List.nil_append,
      Nat.add_sub_cancel_left]

private theorem not_isEncoded_zero (h : scalarLength bs = 0) : ¬IsEncoded bs 0 := by
  rintro ⟨start, e, he, hbegins, hstart, -⟩
  obtain rfl : start = 0 := Nat.le_zero.mp hstart
  exact not_prefix_of_scalarLength_eq h he hbegins

private theorem isEncoded_cons_succ_iff {b : UInt8} (h : scalarLength (b :: rest) = 0) :
    IsEncoded (b :: rest) (i + 1) ↔ IsEncoded rest i := by
  constructor
  · rintro ⟨start, e, he, hbegins, hstart, hend⟩
    cases start with
    | zero => exact absurd hbegins (not_prefix_of_scalarLength_eq h he)
    | succ start => exact ⟨start, e, he, hbegins, by omega, by omega⟩
  · rintro ⟨start, e, he, hbegins, hstart, hend⟩
    exact ⟨start + 1, e, he, hbegins, by omega, by omega⟩

/-- Byte by byte: a byte is kept if an encoding covers its index, and is replaced otherwise. -/
theorem getElem?_display (bs : Bytes) (i : Nat) :
    (display bs)[i]? = bs[i]?.map fun b ↦ if IsEncoded bs i then b else replacement := by
  induction bs using display_induction generalizing i with
  | nil => simp
  | scalar e rest he ih =>
    rw [display_append_of_isScalar he]
    by_cases hi : i < e.length
    · rw [List.getElem?_append_left hi, List.getElem?_append_left hi, List.getElem?_eq_getElem hi,
        Option.map_some, if_pos (isEncoded_append_of_lt he hi)]
    · obtain ⟨j, rfl⟩ := Nat.exists_eq_add_of_le (Nat.le_of_not_lt hi)
      rw [List.getElem?_append_right (by omega), List.getElem?_append_right (by omega),
        Nat.add_sub_cancel_left, ih]
      simp only [isEncoded_append_iff he]
  | stray b rest hb ih =>
    rw [display_cons_of_scalarLength_eq hb]
    cases i with
    | zero => simp [not_isEncoded_zero hb]
    | succ i => simp [ih, isEncoded_cons_succ_iff hb]

/-! ## Texts are shown as they are -/

theorem isText_display (bs : Bytes) : IsText (display bs) := by
  induction bs using display_induction with
  | nil => exact isText_nil
  | scalar e rest he ih =>
    rw [display_append_of_isScalar he]
    exact ih.cons he
  | stray b rest hb ih =>
    rw [display_cons_of_scalarLength_eq hb]
    exact ih.cons (.one (by decide))

private theorem display_append_of_isText (h : IsText bs) (rest : Bytes) :
    display (bs ++ rest) = bs ++ display rest := by
  induction h using IsText.induction with
  | nil => rfl
  | cons e bs he hbs ih =>
    rw [List.append_assoc, display_append_of_isScalar he, ih, List.append_assoc]

theorem display_of_isText (h : IsText bs) : display bs = bs := by
  have happend := display_append_of_isText h []
  rwa [List.append_nil, display_nil, List.append_nil] at happend

theorem display_eq_self_iff : display bs = bs ↔ IsText bs := by
  constructor
  · intro h
    rw [← h]
    exact isText_display bs
  · exact display_of_isText

instance : DecidablePred IsText := fun _ ↦ decidable_of_iff _ display_eq_self_iff

private theorem isEncoded_of_le {b : UInt8} (h : bs[i]? = some b) (hb : b ≤ 0x7F) :
    IsEncoded bs i := by
  obtain ⟨hi, rfl⟩ := List.getElem?_eq_some_iff.mp h
  refine ⟨i, [bs[i]], .one hb, ?_, Nat.le_refl i, Nat.lt_succ_self i⟩
  rw [List.drop_eq_getElem_cons hi]
  exact List.prefix_append [bs[i]] _

/-! ## Reading whole texts -/

/-- What a decoder reports about bytes that are no text. -/
structure Malformed where
  /-- How many bytes in front are a text. -/
  validUpTo : Nat
  /-- How many bytes behind them are bad; unknown if the bytes end too early to tell. -/
  badLength : Option Nat

/-- The beginning of an encoding that is not all of it. -/
def IsUnfinished (bs : Bytes) : Prop := bs ≠ [] ∧ ∃ more, more ≠ [] ∧ IsScalar (bs ++ more)

noncomputable instance : DecidablePred IsUnfinished := Classical.decPred _

/-- How many bytes in front are a text, at the most. -/
def validUpTo (bs : Bytes) : Nat := Nat.findGreatest (fun n ↦ IsText (bs.take n)) bs.length

/-- How many bytes in front are an encoding that is broken off, at the most. -/
noncomputable def unfinishedUpTo (bs : Bytes) : Nat :=
  Nat.findGreatest (fun n ↦ IsUnfinished (bs.take n)) bs.length

/-- What a decoder reports: nothing about a text; else how long a text the bytes begin with, and
what is bad behind it: the longest beginning of an encoding, or a single byte if there is no such
beginning. Where the bytes end inside an encoding it is not known what is bad. -/
noncomputable def malformed? (bs : Bytes) : Option Malformed :=
  if IsText bs then none
  else
    let after := bs.drop (validUpTo bs)
    some ⟨validUpTo bs, if IsUnfinished after then none else some (max 1 (unfinishedUpTo after))⟩

/-- How many bytes are to be replaced. -/
def Malformed.replaced (m : Malformed) (bs : Bytes) : Nat :=
  m.badLength.getD (bs.length - m.validUpTo)

private theorem isText_take_validUpTo (bs : Bytes) : IsText (bs.take (validUpTo bs)) := by
  have hzero : IsText (bs.take 0) := isText_nil
  exact Nat.findGreatest_spec (P := fun n ↦ IsText (bs.take n)) (Nat.zero_le bs.length) hzero

private theorem scalarLength_drop_validUpTo (bs : Bytes) :
    scalarLength (bs.drop (validUpTo bs)) = 0 := by
  by_contra hne
  obtain ⟨e, rest, he, heq⟩ := exists_isScalar_of_scalarLength_ne hne
  have hlength : bs.length - validUpTo bs = e.length + rest.length := by
    rw [← List.length_drop, heq, List.length_append]
  -- the text together with that encoding would be longer
  have hlonger : IsText (bs.take (validUpTo bs + e.length)) := by
    rw [List.take_add, heq, List.take_left]
    exact (isText_take_validUpTo bs).append he.isText
  have hpos := he.length_pos
  have hgreatest : validUpTo bs + e.length ≤ validUpTo bs :=
    Nat.le_findGreatest (P := fun n ↦ IsText (bs.take n)) (by omega) hlonger
  omega

private theorem unfinishedUpTo_le (bs : Bytes) : unfinishedUpTo bs ≤ bs.length :=
  Nat.findGreatest_le bs.length

private theorem isUnfinished_take_unfinishedUpTo (h : unfinishedUpTo bs ≠ 0) :
    IsUnfinished (bs.take (unfinishedUpTo bs)) :=
  Nat.findGreatest_of_ne_zero (P := fun n ↦ IsUnfinished (bs.take n)) rfl h

theorem malformed?_eq_none_iff : malformed? bs = none ↔ IsText bs := by
  rw [malformed?]
  split <;> simp_all

/-- What is reported: behind the longest text in front, a single byte or the beginning of an
encoding. -/
theorem malformed?_eq_some {m : Malformed} (h : malformed? bs = some m) :
    m.validUpTo = validUpTo bs ∧ m.replaced bs ≤ (bs.drop (validUpTo bs)).length ∧
      (m.replaced bs = 1 ∨ IsUnfinished ((bs.drop (validUpTo bs)).take (m.replaced bs))) := by
  rw [malformed?] at h
  split at h
  · cases h
  · rename_i hbs
    obtain rfl := Option.some.inj h
    refine ⟨rfl, ?_⟩
    have hne : bs.drop (validUpTo bs) ≠ [] := by
      intro hnil
      apply hbs
      have htext := isText_take_validUpTo bs
      rwa [List.take_of_length_le (List.drop_eq_nil_iff.mp hnil)] at htext
    by_cases hunfinished : IsUnfinished (bs.drop (validUpTo bs))
    · rw [Malformed.replaced, if_pos hunfinished, Option.getD_none, ← List.length_drop,
        List.take_length]
      exact ⟨Nat.le_refl _, .inr hunfinished⟩
    · rw [Malformed.replaced, if_neg hunfinished, Option.getD_some]
      by_cases hzero : unfinishedUpTo (bs.drop (validUpTo bs)) = 0
      · rw [hzero]
        exact ⟨List.length_pos_iff.mpr hne, .inl rfl⟩
      · rw [Nat.max_eq_right (Nat.one_le_iff_ne_zero.mpr hzero)]
        exact ⟨unfinishedUpTo_le _, .inr (isUnfinished_take_unfinishedUpTo hzero)⟩

theorem IsUnfinished.length_pos (h : IsUnfinished bs) : 0 < bs.length :=
  List.length_pos_iff.mpr h.1

private theorem replaced_pos {m : Malformed} (h : malformed? bs = some m) : 0 < m.replaced bs := by
  obtain ⟨-, -, hone | hunfinished⟩ := malformed?_eq_some h
  · omega
  · have hpos := hunfinished.length_pos
    rw [List.length_take] at hpos
    omega

/-- Reading whole texts: what is bad behind a text is replaced, and reading starts again behind it.
-/
noncomputable def repaired (bs : Bytes) : Bytes :=
  match _h : malformed? bs with
  | none => bs
  | some m =>
    bs.take m.validUpTo ++ List.replicate (m.replaced bs) replacement ++
      repaired (bs.drop (m.validUpTo + m.replaced bs))
termination_by bs.length
decreasing_by
  have h : malformed? bs = some m := ‹_›
  obtain ⟨hvalid, hle, -⟩ := malformed?_eq_some h
  have hpos := replaced_pos h
  rw [List.length_drop] at hle
  rw [List.length_drop, hvalid]
  omega

/-! ## Both ways show the same -/

private theorem display_append_of_isContinuation {cs : Bytes}
    (h : ∀ c ∈ cs, isContinuation c = true) (rest : Bytes) :
    display (cs ++ rest) = List.replicate cs.length replacement ++ display rest := by
  induction cs with
  | nil => rfl
  | cons c cs ih =>
    obtain ⟨hc, hcs⟩ := List.forall_mem_cons.mp h
    rw [List.cons_append, display_cons_of_scalarLength_eq (scalarLength_of_isContinuation hc _),
      ih hcs]
    rfl

/-- An encoding that is broken off is replaced as a whole: none of its bytes begins one. -/
theorem display_append_of_isUnfinished {bad : Bytes} (hstray : scalarLength (bad ++ rest) = 0)
    (hbad : bad.length = 1 ∨ IsUnfinished bad) :
    display (bad ++ rest) = List.replicate bad.length replacement ++ display rest := by
  cases bad with
  | nil =>
    obtain hone | hunfinished := hbad
    · cases hone
    · exact absurd rfl hunfinished.1
  | cons b t =>
    have htail : ∀ c ∈ t, isContinuation c = true := by
      intro c hc
      obtain hone | ⟨-, more, -, he⟩ := hbad
      · obtain rfl : t = [] := List.eq_nil_of_length_eq_zero (Nat.succ.inj hone)
        cases hc
      · exact he.isContinuation_of_mem_tail (List.mem_append_left more hc)
    rw [List.cons_append] at hstray ⊢
    rw [display_cons_of_scalarLength_eq hstray, display_append_of_isContinuation htail]
    rfl

/-- **Both ways of reading show the same.** -/
theorem repaired_eq_display (bs : Bytes) : repaired bs = display bs := by
  fun_induction repaired bs with
  | case1 bs h => exact (display_of_isText (malformed?_eq_none_iff.mp h)).symm
  | case2 bs m h ih =>
    obtain ⟨hvalid, hle, hbad⟩ := malformed?_eq_some h
    rw [ih, hvalid, ← List.drop_drop]
    generalize hk : m.replaced bs = k at hle hbad
    have hshown : display (bs.drop (validUpTo bs))
        = List.replicate k replacement ++ display ((bs.drop (validUpTo bs)).drop k) := by
      have hlength : ((bs.drop (validUpTo bs)).take k).length = k := List.length_take_of_le hle
      have hstray := scalarLength_drop_validUpTo bs
      rw [← List.take_append_drop k (bs.drop (validUpTo bs))] at hstray
      have hbehind := display_append_of_isUnfinished hstray (by rwa [hlength])
      rwa [List.take_append_drop, hlength] at hbehind
    rw [List.append_assoc, ← hshown, ← display_append_of_isText (isText_take_validUpTo bs),
      List.take_append_drop]

/-! ## What is shown -/

/-- **What is shown of a line.** It is a text of the same length as the line. Each byte is kept if
some encoding of a single scalar value covers it, and is replaced otherwise. So texts and bytes of
ASCII are kept, showing twice changes nothing more, and nothing comes in but the replacement; and a
decoder of whole texts that replaces what it reports shows the same. -/
theorem display_keeps_encodings (bs : Bytes) :
    IsText (display bs) ∧ (display bs).length = bs.length ∧
      (∀ i : Nat, (display bs)[i]? = bs[i]?.map fun b ↦ if IsEncoded bs i then b else replacement) ∧
      (∀ e, IsScalar e ↔ ∃ char : Char, e = String.utf8EncodeChar char) ∧
      (IsText bs → display bs = bs) ∧ display (display bs) = display bs ∧
      (∀ (i : Nat) (b : UInt8), bs[i]? = some b → b ≤ 0x7F → (display bs)[i]? = some b) ∧
      (∀ (i : Nat) (b : UInt8), (display bs)[i]? = some b → bs[i]? = some b ∨ b = replacement) ∧
      repaired bs = display bs := by
  refine ⟨isText_display bs, length_display bs, getElem?_display bs,
    fun _ ↦ isScalar_iff_exists_char, display_of_isText, display_of_isText (isText_display bs),
    ?_, ?_, repaired_eq_display bs⟩
  · intro i b hb hascii
    rw [getElem?_display, hb, Option.map_some, if_pos (isEncoded_of_le hb hascii)]
  · intro i b hb
    rw [getElem?_display] at hb
    obtain ⟨c, hc, rfl⟩ := Option.map_eq_some_iff.mp hb
    by_cases hi : IsEncoded bs i
    · exact .inl (by rwa [if_pos hi])
    · exact .inr (if_neg hi)

/-- Two bytes of a euro sign in front of a letter, a letter with an accent, a surrogate, and a first
byte that is left alone at the end. -/
theorem display_keeps_encodings_mixed :
    let letters : Bytes := [0x41, 0xC3, 0xA9]
    let mixed : Bytes := [0xE2, 0x82, 0x41, 0xC3, 0xA9, 0xED, 0xA0, 0x80, 0xF0]
    (IsText letters ∧ display letters = letters) ∧
      repaired mixed = [0x3F, 0x3F, 0x41, 0xC3, 0xA9, 0x3F, 0x3F, 0x3F, 0x3F] ∧
      (mixed[2]? = some 0x41 ∧ (display mixed)[2]? = some 0x41) ∧
      ((display mixed)[0]? = some 0x3F ∧ (mixed[0]? = some 0x3F ∨ 0x3F = replacement)) := by
  intro letters mixed
  have htext : IsText letters := by decide
  have hshown : (display mixed)[0]? = some 0x3F := by decide
  obtain ⟨-, -, -, -, hkept, -⟩ := display_keeps_encodings letters
  obtain ⟨-, -, -, -, -, -, hascii, hreplaced, hrepaired⟩ := display_keeps_encodings mixed
  exact ⟨⟨htext, hkept htext⟩, hrepaired.trans (by decide), ⟨rfl, hascii 2 0x41 rfl (by decide)⟩,
    hshown, hreplaced 0 0x3F hshown⟩

end Linemark
