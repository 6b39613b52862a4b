import Linemark.Proofs.Line.Conservation
import Linemark.Proofs.Line.Coordinates
import Linemark.Proofs.Line.Lines

/-!
# Lines and characters in lock step

A line reader asks its buffer for a line at every call. A character reader asks at the calls that
find it on no line, which may be looks as well as steps, and asks again at every call once there are
no lines left. Both count the lines for themselves.

What a reader has done to its buffer depends on nothing but how often it asked
(`LineReader.input_after`, `CharReader.input_after`): `LineBuffer.takeLines` gives the lines that
came off and the buffer that is left. So two readers of one source that asked equally often have
equal buffers, down to the bytes in store, the reads that were made and the script that is left, and
they have counted the same lines (`readers_in_lockStep`). No invariant relates the two readers call
by call, since no schedule of the one belongs to a schedule of the other.
-/

namespace Linemark

namespace LineBuffer

theorem takeLines_fst {s : LineBuffer} (hs : s.Valid) (n : Nat) :
    (s.takeLines n).1 = (RawLine.ofBytes s.ahead).take n := by
  induction n generalizing s with
  | zero => rfl
  | succ n ih =>
    have htakes := takes_nextLine hs
    rw [takeLines, htakes.ofBytes_ahead]
    dsimp only
    rw [ih htakes.handsOut.valid]
    cases hn : s.nextLine with
    | mk line next =>
      cases line with
      | none =>
        obtain ⟨hout, hnil⟩ := spec_of_nextLine_eq_none hs hn
        have hahead : next.ahead = [] := by simpa [hnil] using hout.ahead_eq.symm
        simp [hahead]
      | some l => rfl

end LineBuffer

/-! ## Line readers -/

namespace LineReader

variable {r : LineReader}

theorem asked_eq_length (r : LineReader) (calls : List Call) :
    interface.asked r calls = calls.length := by
  induction calls generalizing r with
  | nil => rfl
  | cons c calls ih => exact congrArg (· + 1) (ih (r.call c).2)

/-- A line reader asks once a call. -/
theorem input_after (r : LineReader) (calls : List Call) :
    (r.after calls).input = (r.input.takeLines calls.length).2 ∧
      r.pulled calls = (r.input.takeLines calls.length).1 := by
  obtain ⟨-, hinput, hpulled, -⟩ := interface.after_spec r calls
  rw [asked_eq_length] at hinput hpulled
  exact ⟨hinput, hpulled⟩

/-- What of a line a call gives. -/
def Call.view : Call → Line × Terminator → Line × Option Terminator
  | .line, l => (l.1, none)
  | .terminated, l => (l.1, some l.2)

theorem call_spec (hr : r.input.Valid) (c : Call) :
    (r.call c).2.input.Valid ∧ (r.call c).1 = r.ahead.head?.map c.view ∧
      (r.call c).2.ahead = r.ahead.tail := by
  obtain ⟨hvalid, hhead, htail⟩ := readTerminated_spec hr
  rw [call_snd]
  refine ⟨hvalid, ?_, htail⟩
  cases c with
  | line =>
    change (r.readTerminated.1.map Prod.fst).map (fun l ↦ (l, none)) = _
    rw [hhead, Option.map_map]
    rfl
  | terminated =>
    change r.readTerminated.1.map (fun l ↦ (l.1, some l.2)) = _
    rw [hhead]
    rfl

theorem after_spec (hr : r.input.Valid) (calls : List Call) :
    (r.after calls).input.Valid ∧ (r.after calls).ahead = r.ahead.drop calls.length := by
  induction calls generalizing r with
  | nil => exact ⟨hr, rfl⟩
  | cons c calls ih =>
    obtain ⟨hvalid, -, htail⟩ := call_spec hr c
    obtain ⟨hvalid', hahead⟩ := ih hvalid
    refine ⟨hvalid', ?_⟩
    rw [List.length_cons, ← List.drop_tail, ← htail]
    exact hahead

/-- The answers of a line reader are its lines, one after another, whichever calls are made. -/
theorem call_after_fst (hr : r.input.Valid) (calls : List Call) (c : Call) :
    ((r.after calls).call c).1 = r.ahead[calls.length]?.map c.view := by
  obtain ⟨hvalid, hahead⟩ := after_spec hr calls
  rw [(call_spec hvalid c).2.1, hahead, List.head?_drop]

end LineReader

/-! ## Character readers -/

namespace CharReader

variable {r : CharReader}

/-- How often a sequence of calls asks for a line: as often as a call finds the reader on none. -/
def asked (r : CharReader) (calls : List Call) : Nat := interface.asked r calls

/-- A character reader asks when it is on no line. -/
theorem input_after (r : CharReader) (calls : List Call) :
    (r.after calls).input = (r.input.takeLines (r.asked calls)).2 ∧
      r.pulled calls = (r.input.takeLines (r.asked calls)).1 := by
  obtain ⟨-, hinput, hpulled, -⟩ := interface.after_spec r calls
  exact ⟨hinput, hpulled⟩

/-! ### The line that a reader is on -/

private theorem text_of_next? {c d : Cursor} (h : c.next? = some d) : d.text = c.text := by
  rw [Cursor.next?] at h
  split at h
  · cases h
  · rw [← Option.some.inj h]

private theorem text_of_call {d : Cursor} {c : Call} (h : (r.call c).2.current = some d) :
    ∃ e, r.settle.current = some e ∧ d.text = e.text := by
  obtain hcall | hcall := r.call_snd_eq_or c
  · rw [hcall] at h
    exact ⟨d, h, rfl⟩
  · rw [hcall] at h
    obtain ⟨e, he, hnext⟩ := Option.bind_eq_some_iff.mp h
    exact ⟨e, he, text_of_next? hnext⟩

private theorem text_of_settle {e : Cursor} (h : r.settle.current = some e) :
    ((interface.pull r).getLast?.map RawLine.text).or (r.current.map Cursor.text)
      = some e.text := by
  change ((r.input.takeIf r.current.isNone).1.getLast?.map RawLine.text).or _ = _
  revert h
  fun_cases settle r with
  | case1 c hc =>
    intro h
    rw [hc] at h ⊢
    exact congrArg (Option.map Cursor.text) h
  | case2 hc input hn =>
    intro h
    cases hc.symm.trans h
  | case3 hc l input hn =>
    rintro ⟨⟩
    rw [LineBuffer.takeIf, hc, hn]
    rfl

/-- A reader is on the line that it took last. -/
theorem text_of_after {d : Cursor} (calls : List Call) (h : (r.after calls).current = some d) :
    ((r.pulled calls).getLast?.map RawLine.text).or (r.current.map Cursor.text) = some d.text := by
  induction calls generalizing r with
  | nil => exact congrArg (Option.map Cursor.text) h
  | cons c calls ih =>
    have hrest := ih h
    change ((interface.pull r ++ (r.call c).2.pulled calls).getLast?.map RawLine.text).or _ = _
    rw [List.getLast?_append]
    cases hlast : ((r.call c).2.pulled calls).getLast? with
    | some l =>
      rw [hlast] at hrest
      exact hrest
    | none =>
      -- no later call took a line, so it is the line that this call leaves the reader on
      rw [hlast] at hrest
      obtain ⟨e, he, htext⟩ := Option.map_eq_some_iff.mp hrest
      obtain ⟨f, hf, htext'⟩ := text_of_call he
      rw [Option.none_or, ← htext, htext']
      exact text_of_settle hf

end CharReader

/-! ## Both readers -/

/-- A character reader stands where a line reader stands: they have the same name for the input and
the same buffer, with the bytes in store and the source with its script and its count of reads; and
they have counted the same lines and the same bytes. -/
structure InStep (q : LineReader) (r : CharReader) : Prop where
  /-- The name of the input. -/
  filename_eq : r.filename = q.filename
  /-- All that is left of the input, and what was done to it. -/
  input_eq : r.input = q.input
  /-- The number of the last line. -/
  line_eq : r.line = q.line
  /-- The bytes that have been handed out. -/
  consumed_eq : r.consumed = q.consumed

section LockStep

variable (filename : String) (source : Source)

/-- **Asking equally often** brings two readers of a source to the same place. -/
theorem inStep_of_asked_eq {lineCalls : List LineReader.Call} {charCalls : List CharReader.Call}
    (h : (CharReader.ofSource filename source).asked charCalls = lineCalls.length) :
    InStep ((LineReader.ofSource filename source).after lineCalls)
        ((CharReader.ofSource filename source).after charCalls) ∧
      (CharReader.ofSource filename source).pulled charCalls
        = (RawLine.ofBytes source.delivered).take lineCalls.length := by
  let q := LineReader.ofSource filename source
  let r := CharReader.ofSource filename source
  obtain ⟨hname, -, -, hline⟩ := LineReader.interface.after_spec q lineCalls
  obtain ⟨hname', -, -, hline'⟩ := CharReader.interface.after_spec r charCalls
  obtain ⟨hinput, hpulled⟩ := q.input_after lineCalls
  obtain ⟨hinput', hpulled'⟩ := r.input_after charCalls
  rw [h] at hinput' hpulled'
  have hsame : (r.after charCalls).input = (q.after lineCalls).input := hinput'.trans hinput.symm
  have htaken : r.pulled charCalls = q.pulled lineCalls := hpulled'.trans hpulled.symm
  refine ⟨⟨hname'.trans hname.symm, hsame, ?_, congrArg LineBuffer.consumed hsame⟩, ?_⟩
  · exact hline'.trans ((congrArg (numberAfter 0) htaken).trans hline.symm)
  · refine hpulled'.trans ((LineBuffer.takeLines_fst ?_ _).trans ?_)
    · exact CharReader.valid_ofSource filename source
    · change (RawLine.ofBytes (LineBuffer.ofSource source).ahead).take _ = _
      rw [LineBuffer.ofSource, LineBuffer.ahead_ofSize]

/-- The answers of a line reader are the lines of the source with their numbers. -/
theorem LineReader.call_after_ofSource (calls : List LineReader.Call) (c : LineReader.Call) :
    (((LineReader.ofSource filename source).after calls).call c).1
      = (RawLine.ofBytes source.delivered)[calls.length]?.map fun l ↦ c.view
        (⟨⟨filename, min (calls.length + 1) Position.limit, 0⟩, l.text⟩, l.terminator) := by
  rw [call_after_fst (valid_ofSource filename source), ahead_ofSource,
    getElem?_linesAfter (Nat.zero_le _), Option.map_map, Nat.zero_add]
  rfl

private theorem LineReader.after_concat (r : LineReader) (calls : List LineReader.Call)
    (last : LineReader.Call) : r.after (calls ++ [last]) = ((r.after calls).call last).2 :=
  List.foldl_append

private theorem here_of_pulled_eq {charCalls : List CharReader.Call} {n : Nat} {l : RawLine}
    {c : LineChar}
    (hpulled : (CharReader.ofSource filename source).pulled charCalls
      = (RawLine.ofBytes source.delivered).take (n + 1))
    (hl : (RawLine.ofBytes source.delivered)[n]? = some l)
    (hc : ((CharReader.ofSource filename source).after charCalls).here = some c) :
    c.position.filename = filename ∧ c.position.line = min (n + 1) Position.limit ∧
      c.text = l.text := by
  obtain ⟨d, hd, rfl⟩ := Option.map_eq_some_iff.mp hc
  refine ⟨?_, ?_, ?_⟩
  · exact (CharReader.interface.after_spec (CharReader.ofSource filename source) charCalls).1
  · have haccount := CharReader.interface.account_after
      (r := CharReader.ofSource filename source) rfl rfl charCalls
    have hlt := (List.getElem?_eq_some_iff.mp hl).1
    refine haccount.line_eq.trans ?_
    change min ((CharReader.ofSource filename source).pulled charCalls).length _ = _
    rw [hpulled, List.length_take_of_le hlt]
  · have htext := CharReader.text_of_after charCalls hd
    rw [hpulled, List.take_add_one, hl, Option.toList_some, List.getLast?_append_cons] at htext
    exact (Option.some.inj htext).symm

end LockStep

/-! ## Taking all -/

private theorem filter_flatMap_countedChars {lines : List Line} {l : Line}
    (h : lines.Pairwise fun l m ↦ l.position.line < m.position.line) (hl : l ∈ lines) :
    (lines.flatMap Line.countedChars).filter (·.position.line == l.position.line)
      = l.countedChars := by
  have hother : ∀ m : Line, m.position.line ≠ l.position.line →
      m.countedChars.filter (·.position.line == l.position.line) = [] := by
    intro m hm
    rw [List.filter_eq_nil_iff]
    intro c hc
    rwa [Line.position_line_of_mem_countedChars hc, beq_iff_eq]
  have hsame : l.countedChars.filter (·.position.line == l.position.line) = l.countedChars := by
    rw [List.filter_eq_self]
    intro c hc
    rw [Line.position_line_of_mem_countedChars hc, beq_self_eq_true]
  induction lines with
  | nil => cases hl
  | cons m lines ih =>
    obtain ⟨hm, hlines⟩ := List.pairwise_cons.mp h
    rw [List.flatMap_cons, List.filter_append]
    rcases List.mem_cons.mp hl with rfl | hl
    · have hrest : (lines.flatMap Line.countedChars).filter (·.position.line == l.position.line)
          = [] := by
        rw [List.filter_flatMap, List.flatMap_eq_nil_iff]
        intro m hmem
        exact hother m (Nat.ne_of_gt (hm m hmem))
      rw [hsame, hrest, List.append_nil]
    · rw [hother m (Nat.ne_of_lt (hm l hl)), List.nil_append, ih hlines hl]

/-- **Lines and characters in lock step.** Whatever calls were made of it, a line reader answers
with the lines of its source, numbered from one, and with none after the last. A character reader of
the same source that has asked for lines as often, in whichever calls, has taken the same lines,
stands where the line reader stands, and is on the line that the line reader gave last if it is on
any. Taken all, the characters are those of the lines: with the number of a line there are its bytes
and its end, and there is no other number. -/
theorem readers_in_lockStep (filename : String) (source : Source) :
    let ls := RawLine.ofBytes source.delivered
    let byLine := LineReader.ofSource filename source
    let byChar := CharReader.ofSource filename source
    (∀ (calls : List LineReader.Call) (c : LineReader.Call),
      ((byLine.after calls).call c).1 = ls[calls.length]?.map fun l ↦ c.view
        (⟨⟨filename, min (calls.length + 1) Position.limit, 0⟩, l.text⟩, l.terminator)) ∧
    (∀ (lineCalls : List LineReader.Call) (last : LineReader.Call)
        (charCalls : List CharReader.Call), byChar.asked charCalls = lineCalls.length + 1 →
      let answered := (byLine.after lineCalls).call last
      InStep answered.2 (byChar.after charCalls) ∧
        byChar.pulled charCalls = ls.take (lineCalls.length + 1) ∧
        ∀ l ∈ answered.1, ∀ c ∈ (byChar.after charCalls).here,
          c.position.filename = l.1.position.filename ∧ c.position.line = l.1.position.line ∧
            c.text = l.1.text) ∧
    (ls.length ≤ Position.limit →
      byLine.lines.1 = numbered filename 1 ls ∧
        byChar.chars.1 = byLine.lines.1.flatMap Line.countedChars ∧
        ∀ l ∈ byLine.lines.1,
          byChar.chars.1.filter (·.position.line == l.position.line) = l.countedChars ∧
            (l.text.length < Position.limit → l.countedChars = l.chars)) := by
  intro ls byLine byChar
  refine ⟨LineReader.call_after_ofSource filename source, ?_, ?_⟩
  · intro lineCalls last charCalls hasked answered
    have hlength : (lineCalls ++ [last]).length = lineCalls.length + 1 := by
      rw [List.length_append, List.length_singleton]
    obtain ⟨hstep, hpulled⟩ := inStep_of_asked_eq filename source (hasked.trans hlength.symm)
    rw [LineReader.after_concat] at hstep
    rw [hlength] at hpulled
    refine ⟨hstep, hpulled, ?_⟩
    intro l hl c hc
    have hanswer : answered.1 = _ := LineReader.call_after_ofSource filename source lineCalls last
    rw [hanswer] at hl
    obtain ⟨raw, hraw, rfl⟩ := Option.map_eq_some_iff.mp hl
    obtain ⟨hname, hline, htext⟩ := here_of_pulled_eq filename source hpulled hraw hc
    cases last with
    | line => exact ⟨hname, hline, htext⟩
    | terminated => exact ⟨hname, hline, htext⟩
  · intro hlength
    rw [LineReader.lines_ofSource filename hlength, CharReader.chars_ofSource filename hlength]
    refine ⟨rfl, rfl, ?_⟩
    intro l hl
    exact ⟨filter_flatMap_countedChars (pairwise_numbered filename 1 ls) hl, Line.countedChars_eq⟩

/-- Both readers after their first line, which ends in CR and LF from two reads with an interruption
between them, and the characters of their second. -/
theorem readers_in_lockStep_scattered :
    let byLine := LineReader.ofSource "input" LineBuffer.scattered
    let byChar := CharReader.ofSource "input" LineBuffer.scattered
    let second : Line := ⟨⟨"input", 2, 0⟩, [0x62]⟩
    (byChar.asked [.peek] = 1 ∧
      InStep ((byLine.after []).call .terminated).2 (byChar.after [.peek]) ∧
      ((byLine.after []).call .terminated).1
        = some (⟨⟨"input", 1, 0⟩, [0x61]⟩, some .crlf)) ∧
    ((RawLine.ofBytes LineBuffer.scattered.delivered).length ≤ Position.limit ∧
      second ∈ byLine.lines.1 ∧ second.text.length < Position.limit ∧
      byChar.chars.1.filter (·.position.line == 2) = second.chars) := by
  intro byLine byChar second
  obtain ⟨hanswers, hstep, hall⟩ := readers_in_lockStep "input" LineBuffer.scattered
  have hasked : byChar.asked [.peek] = 1 := rfl
  have hanswer := hanswers [] .terminated
  have hlength : (RawLine.ofBytes LineBuffer.scattered.delivered).length ≤ Position.limit := by
    rw [LineBuffer.ofBytes_delivered_scattered]
    decide
  obtain ⟨hlines, -, hchars⟩ := hall hlength
  rw [LineBuffer.ofBytes_delivered_scattered] at hanswer hlines
  have hsecond : second ∈ byLine.lines.1 := by
    rw [hlines]
    decide
  have htext : second.text.length < Position.limit := by decide
  obtain ⟨hfilter, hcounted⟩ := hchars second hsecond
  exact ⟨⟨hasked, (hstep [] .terminated [.peek] hasked).1, hanswer⟩, hlength, hsecond, htext,
    hfilter.trans (hcounted htext)⟩

end Linemark
