import Linemark.Proofs.Diagnostic.Escapes
import Linemark.Proofs.Diagnostic.Output
import Linemark.Proofs.Text.Numerals

/-!
# Colours are decoration

Of a whole sequence of calls, the coloured output with its escape sequences deleted is the plain
output. Both are the pieces of the calls (`Reporter.output_after`), so all there is to see is what a
single piece becomes: with colours its text stands between two sequences, the second of which is
the reset, and deleting them leaves the text. For this no text may hold an ESC of its own. It is
enough that the names, texts and messages hold none (`Reporter.Call.Unescaped`), since nothing that
a report adds to them does, and showing a line adds no byte but the replacement.
-/

namespace Linemark

/-! ## Pieces without ESC -/

/-- No ESC is in the text, and the colour is one that an escape sequence can have. -/
structure Piece.Unescaped (p : Piece) : Prop where
  /-- There is no ESC in the text. -/
  text : escape ∉ p.text
  /-- The parameters are digits and semicolons. -/
  color : ∀ parameters ∈ p.color, (utf8 parameters).all isParameter = true

/-- What a piece is made of when it is written with colours. -/
def Piece.tokens (p : Piece) : List Token :=
  match p.color with
  | some parameters =>
    .sequence (escapeSequence parameters) :: p.text.map .shown ++ [.sequence resetColor]
  | none => p.text.map .shown

private theorem Piece.Unescaped.scan_bytes_append {p : Piece} (h : p.Unescaped) (rest : Bytes) :
    scan (p.bytes true ++ rest) = p.tokens ++ scan rest := by
  obtain ⟨color, text⟩ := p
  cases color with
  | none => exact scan_append_of_notMem h.text rest
  | some parameters =>
    have hreset : (utf8 "0").all isParameter = true := by decide
    have hbytes : Piece.bytes true ⟨some parameters, text⟩ ++ rest
        = escapeSequence parameters ++ (text ++ (resetColor ++ rest)) := by
      simp [bytes, colored]
    rw [hbytes, scan_escapeSequence_append (h.color parameters rfl), scan_append_of_notMem h.text,
      resetColor, scan_escapeSequence_append hreset]
    simp [tokens, resetColor]

/-- Pieces are scanned one by one. -/
theorem scan_pieceBytes_append {ps : List Piece} (h : ∀ p ∈ ps, p.Unescaped) (rest : Bytes) :
    scan (pieceBytes true ps ++ rest) = ps.flatMap Piece.tokens ++ scan rest := by
  induction ps with
  | nil => rfl
  | cons p ps ih =>
    have hp := h p List.mem_cons_self
    have hps : ∀ q ∈ ps, q.Unescaped := fun q hq ↦ h q (List.mem_cons_of_mem p hq)
    rw [pieceBytes_cons, List.append_assoc, hp.scan_bytes_append, ih hps, List.flatMap_cons,
      List.append_assoc]

private theorem scan_pieceBytes {ps : List Piece} (h : ∀ p ∈ ps, p.Unescaped) :
    scan (pieceBytes true ps) = ps.flatMap Piece.tokens := by
  have hscan := scan_pieceBytes_append h []
  rwa [List.append_nil, scan_nil, List.append_nil] at hscan

private theorem Piece.filterMap_shown_tokens (p : Piece) :
    p.tokens.filterMap Token.shown? = p.bytes false := by
  have htext : (p.text.map Token.shown).filterMap Token.shown? = p.text := by
    rw [List.filterMap_map]
    exact List.filterMap_some
  rw [tokens, bytes]
  cases p.color with
  | none => exact htext
  | some parameters => simp [List.filterMap_cons, Token.shown?, htext]

private theorem Piece.filterMap_sequence_tokens (p : Piece) :
    p.tokens.filterMap Token.sequence?
      = (p.color.map fun parameters ↦ [escapeSequence parameters, resetColor]).getD [] := by
  have htext : (p.text.map Token.shown).filterMap Token.sequence? = [] := by
    rw [List.filterMap_map]
    simp [Token.sequence?]
  rw [tokens]
  cases p.color with
  | none => exact htext
  | some parameters => simp [Token.sequence?, htext]

/-- Deleting the escape sequences leaves the pieces as they are without colours. -/
theorem stripped_pieceBytes {ps : List Piece} (h : ∀ p ∈ ps, p.Unescaped) :
    stripped (pieceBytes true ps) = pieceBytes false ps := by
  rw [stripped, scan_pieceBytes h, List.filterMap_flatMap, pieceBytes]
  exact congrArg (List.flatMap · ps) (funext Piece.filterMap_shown_tokens)

private theorem sequences_pieceBytes {ps : List Piece} (h : ∀ p ∈ ps, p.Unescaped) :
    sequences (pieceBytes true ps) = ps.flatMap fun p ↦
      (p.color.map fun parameters ↦ [escapeSequence parameters, resetColor]).getD [] := by
  rw [sequences, scan_pieceBytes h, List.filterMap_flatMap]
  exact congrArg (List.flatMap · ps) (funext Piece.filterMap_sequence_tokens)

private theorem sequences_pieceBytes_append {ps qs : List Piece} (hps : ∀ p ∈ ps, p.Unescaped)
    (hqs : ∀ q ∈ qs, q.Unescaped) :
    sequences (pieceBytes true (ps ++ qs))
      = sequences (pieceBytes true ps) ++ sequences (pieceBytes true qs) := by
  rw [sequences_pieceBytes (List.forall_mem_append.mpr ⟨hps, hqs⟩), sequences_pieceBytes hps,
    sequences_pieceBytes hqs, List.flatMap_append]

/-- The last escape sequence is the reset, if there is any. -/
theorem getLast?_sequences_pieceBytes {ps : List Piece} (h : ∀ p ∈ ps, p.Unescaped)
    (hne : sequences (pieceBytes true ps) ≠ []) :
    (sequences (pieceBytes true ps)).getLast? = some resetColor := by
  rw [sequences_pieceBytes h] at hne ⊢
  clear h
  induction ps with
  | nil => exact absurd rfl hne
  | cons p ps ih =>
    rw [List.flatMap_cons, List.getLast?_append]
    by_cases hps : (ps.flatMap fun p ↦
        (p.color.map fun parameters ↦ [escapeSequence parameters, resetColor]).getD []) = []
    · -- the sequences of the first piece are the last ones
      rw [List.flatMap_cons, hps, List.append_nil] at hne
      rw [hps]
      cases hcolor : p.color with
      | none => simp [hcolor] at hne
      | some parameters => simp
    · rw [ih hps]
      rfl

/-! ## Reports without ESC -/

theorem mem_displayFrom {kept : Nat} {shown : Array UInt8} {bs : Bytes} {b : UInt8}
    (h : b ∈ displayFrom kept shown bs) : b ∈ shown ∨ b ∈ bs ∨ b = replacement := by
  have hpush : ∀ {shown : Array UInt8} {c x : UInt8} {rest : Bytes}, x = c ∨ x = replacement →
      b ∈ shown.push x ∨ b ∈ rest ∨ b = replacement →
      b ∈ shown ∨ b ∈ c :: rest ∨ b = replacement := by
    rintro shown c x rest hx (hb | hb | hb)
    · rcases Array.mem_push.mp hb with hb | rfl
      · exact .inl hb
      · rcases hx with rfl | rfl
        · exact .inr (.inl List.mem_cons_self)
        · exact .inr (.inr rfl)
    · exact .inr (.inl (List.mem_cons_of_mem c hb))
    · exact .inr (.inr hb)
  -- every byte is pushed as it is or as the replacement
  fun_induction displayFrom kept shown bs with
  | case1 => exact .inl h
  | case2 shown c rest n ih => exact hpush (.inl rfl) (ih h)
  | case3 shown c rest _ ih => exact hpush (.inr rfl) (ih h)
  | case4 shown c rest n _ ih => exact hpush (.inl rfl) (ih h)

private theorem escape_notMem_display {bs : Bytes} (h : escape ∉ bs) : escape ∉ display bs := by
  intro hmem
  rw [display, Array.mem_toList_iff] at hmem
  rcases mem_displayFrom hmem with hb | hb | hb
  · simp at hb
  · exact h hb
  · exact absurd hb (by decide)

private theorem escape_notMem_decimal (n : Nat) : escape ∉ utf8 (decimal n) := by
  intro h
  exact absurd (mem_utf8_decimal h).1 (by decide)

private theorem escape_notMem_coordinates (line column : Nat) :
    escape ∉ utf8 (Position.coordinates line column) := by
  have hcolon : escape ∉ utf8 ":" := by decide
  simp [Position.coordinates, escape_notMem_decimal, hcolon]

private theorem escape_notMem_position {p : Position} (h : escape ∉ utf8 p.filename) :
    escape ∉ utf8 p.text := by
  have hcolon : escape ∉ utf8 ":" := by decide
  rw [Position.text]
  split
  · simp [h, hcolon, escape_notMem_decimal]
  · simp [h, hcolon, escape_notMem_coordinates]

private theorem escape_notMem_tildes (n : Nat) : escape ∉ tildes n := by
  intro h
  exact absurd (List.eq_of_mem_replicate h) (by decide)

private theorem escape_notMem_caretRow (column n : Nat) : escape ∉ caretRow column n := by
  have hspace : escape ∉ List.replicate (column - 1) (0x20 : UInt8) := by
    intro h
    exact absurd (List.eq_of_mem_replicate h) (by decide)
  have hcaret : escape ≠ 0x5E := by decide
  simp [caretRow, hspace, hcaret, escape_notMem_tildes]

/-- No ESC is in what a report takes from its input: the name of the input, and the texts of the
lines that are shown. -/
def Report.Unescaped : Report → Prop
  | .line l => escape ∉ utf8 l.position.filename ∧ escape ∉ l.text
  | .char c => escape ∉ utf8 c.position.filename ∧ escape ∉ c.text
  | .span s =>
    escape ∉ utf8 s.first.position.filename ∧ escape ∉ s.first.text ∧ escape ∉ s.last.text

instance : (r : Report) → Decidable r.Unescaped
  | .line l => inferInstanceAs (Decidable (escape ∉ utf8 l.position.filename ∧ escape ∉ l.text))
  | .char c => inferInstanceAs (Decidable (escape ∉ utf8 c.position.filename ∧ escape ∉ c.text))
  | .span s => inferInstanceAs (Decidable (escape ∉ utf8 s.first.position.filename ∧
      escape ∉ s.first.text ∧ escape ∉ s.last.text))

/-- No ESC is in a shown line or in its marks. -/
def Excerpt.Unescaped (e : Excerpt) : Prop :=
  escape ∉ e.source ∧ ∀ underline ∈ e.underline, escape ∉ underline

theorem Report.Unescaped.position {r : Report} (h : r.Unescaped) :
    escape ∉ utf8 r.position.text := by
  cases r with
  | line l => exact escape_notMem_position h.1
  | char c => exact escape_notMem_position h.1
  | span s => exact escape_notMem_position h.1

theorem Report.Unescaped.excerpts {r : Report} (h : r.Unescaped) :
    ∀ e ∈ r.excerpts, e.Unescaped := by
  cases r with
  | line l => simpa [Report.excerpts, Excerpt.Unescaped] using escape_notMem_display h.2
  | char c =>
    simpa [Report.excerpts, Excerpt.Unescaped, escape_notMem_caretRow]
      using escape_notMem_display h.2
  | span s =>
    have hfirst := escape_notMem_display h.2.1
    have hlast := escape_notMem_display h.2.2
    have hcontinuation : escape ∉ continuation := by decide
    rw [Report.excerpts]
    by_cases hline : s.isOnOneLine = true
    · simpa [hline, Excerpt.Unescaped, escape_notMem_caretRow] using hfirst
    · simp [hline, Excerpt.Unescaped, escape_notMem_caretRow, escape_notMem_tildes, hfirst, hlast,
        hcontinuation]

private theorem unescaped_severityPiece (severity : Severity) : severity.piece.Unescaped := by
  refine ⟨?_, ?_⟩
  · cases severity <;> decide
  · rintro parameters ⟨⟩
    cases severity <;> decide

private theorem unescaped_plainPiece {text : Bytes} (h : escape ∉ text) :
    Piece.Unescaped ⟨none, text⟩ :=
  ⟨h, by simp⟩

theorem Excerpt.Unescaped.pieces {e : Excerpt} (h : e.Unescaped) (severity : Severity) :
    ∀ p ∈ e.pieces severity, p.Unescaped := by
  obtain ⟨source, underline⟩ := e
  have hbreak : escape ∉ [lineFeed] := by decide
  have hsource : Piece.Unescaped ⟨none, source ++ [lineFeed]⟩ :=
    unescaped_plainPiece fun hmem ↦ (List.mem_append.mp hmem).elim h.1 hbreak
  cases underline with
  | none => simpa [Excerpt.pieces] using hsource
  | some underline =>
    have hmarks : Piece.Unescaped ⟨some severity.parameters, underline⟩ :=
      ⟨h.2 underline rfl, (unescaped_severityPiece severity).color⟩
    simp [Excerpt.pieces, hsource, hmarks, unescaped_plainPiece hbreak]

theorem Report.Unescaped.pieces {r : Report} (h : r.Unescaped) (severity : Severity)
    {message : String} (hmessage : escape ∉ utf8 message) :
    ∀ p ∈ r.pieces severity message, p.Unescaped := by
  have hcolon : escape ∉ utf8 ": " := by decide
  have hposition : Piece.Unescaped ⟨some "1", utf8 r.position.text⟩ := by
    refine ⟨h.position, ?_⟩
    rintro parameters ⟨⟩
    decide
  have hbreak : escape ≠ lineFeed := by decide
  have hrest : escape ∉ utf8 ": " ++ utf8 message ++ [lineFeed] := by
    simp [hcolon, hmessage, hbreak]
  have hexcerpts : ∀ p ∈ r.excerpts.flatMap (·.pieces severity), p.Unescaped := by
    intro p hp
    obtain ⟨e, he, hpe⟩ := List.mem_flatMap.mp hp
    exact (h.excerpts e he).pieces severity p hpe
  intro p hp
  rcases List.mem_append.mp hp with hp | hp
  · simp only [List.mem_cons, List.not_mem_nil, or_false] at hp
    rcases hp with rfl | rfl | rfl | rfl
    · exact hposition
    · exact unescaped_plainPiece hcolon
    · exact unescaped_severityPiece severity
    · exact unescaped_plainPiece hrest
  · exact hexcerpts p hp

private theorem escape_notMem_quantity (n : Nat) {noun : String} (h : escape ∉ utf8 noun) :
    escape ∉ utf8 (Reporter.quantity n noun) := by
  have hspace : escape ∉ utf8 " " := by decide
  have hplural : escape ∉ utf8 (if n = 1 then "" else "s") := by split <;> decide
  simp [Reporter.quantity, escape_notMem_decimal, h, hspace, hplural]

private theorem unescaped_summaryPieces (errors warnings : Nat) :
    ∀ p ∈ summaryPieces errors warnings, p.Unescaped := by
  have herrors : escape ∉ utf8 (Reporter.quantity errors "error") :=
    escape_notMem_quantity errors (by decide)
  have hwarnings : escape ∉ utf8 (Reporter.quantity warnings "warning") :=
    escape_notMem_quantity warnings (by decide)
  have hcolon : escape ∉ utf8 ": " := by decide
  have hand : escape ∉ utf8 " and " := by decide
  have hend : escape ∉ utf8 " emitted\n" := by decide
  have htext : escape ∉ utf8 (Reporter.summaryText errors warnings) := by
    simp only [Reporter.summaryText, utf8_append, List.mem_append, not_or]
    refine ⟨⟨hcolon, ?_⟩, hend⟩
    split
    · exact hwarnings
    · split
      · exact herrors
      · simp [herrors, hwarnings, hand]
  rw [summaryPieces]
  split
  · simp
  · simp [unescaped_severityPiece, unescaped_plainPiece htext]

/-! ## Calls without ESC -/

namespace Reporter

/-- No ESC is in the name, the texts and the message that a call reports. -/
def Call.Unescaped : Call → Prop
  | .report r _ message => r.Unescaped ∧ escape ∉ utf8 message
  | .named _ r message => r.Unescaped ∧ escape ∉ utf8 message
  | .summarize => True
  | .flush => True

instance : (c : Call) → Decidable c.Unescaped
  | .report r _ message => inferInstanceAs (Decidable (r.Unescaped ∧ escape ∉ utf8 message))
  | .named _ r message => inferInstanceAs (Decidable (r.Unescaped ∧ escape ∉ utf8 message))
  | .summarize => inferInstanceAs (Decidable True)
  | .flush => inferInstanceAs (Decidable True)

theorem Call.Unescaped.pieces {c : Call} (h : c.Unescaped) (t : Tally) :
    ∀ p ∈ c.pieces t, p.Unescaped := by
  cases c with
  | report r severity message => exact h.1.pieces severity h.2
  | named severity r message => exact h.1.pieces severity h.2
  | summarize => exact unescaped_summaryPieces t.errors t.warnings
  | flush => exact List.forall_mem_nil _

private theorem unescaped_piecesAfter {calls : List Call} (h : ∀ c ∈ calls, c.Unescaped)
    (t : Tally) : ∀ p ∈ piecesAfter t calls, p.Unescaped := by
  induction calls generalizing t with
  | nil => exact List.forall_mem_nil _
  | cons c calls ih =>
    intro p hp
    rcases List.mem_append.mp hp with hp | hp
    · exact (h c List.mem_cons_self).pieces t p hp
    · exact ih (fun d hd ↦ h d (List.mem_cons_of_mem c hd)) (c.tally t) p hp

/-- **Colours are decoration.** Of two new reporters that are called alike, one uses colours and the
other does not. Then the one wrote what the other wrote, and escape sequences; the other wrote the
reports as they are rendered and the lines of the summaries; both counted the errors and warnings
that were reported; and if the next call writes an escape sequence, the last one is the reset. -/
theorem decorated_of_calls {s s' : Sink} (hs : s.limit = none) (hs' : s'.limit = none)
    {mode mode' : ColorMode} {isTerminal isTerminal' : Bool}
    (hmode : mode.usesColors isTerminal = true) (hmode' : mode'.usesColors isTerminal' = false)
    {calls : List Call} (hcalls : ∀ c ∈ calls, c.Unescaped) :
    let colored := (ofSink s mode isTerminal).after calls
    let plain := (ofSink s' mode' isTerminal').after calls
    ∃ written, colored.sink.output = s.output ++ written ∧
      plain.sink.output = s'.output ++ stripped written ∧
      stripped written = transcript .start calls ∧
      colored.errors = plain.errors ∧ colored.warnings = plain.warnings ∧
      plain.errors = calls.countP (fun c ↦ c.severity? = some .error) ∧
      plain.warnings = calls.countP (fun c ↦ c.severity? = some .warning) ∧
      ∀ c : Call, c.Unescaped → ∃ more, (colored.call c).sink.output = s.output ++ written ++ more ∧
        (sequences more ≠ [] → (sequences (written ++ more)).getLast? = some resetColor) := by
  intro colored plain
  have hpieces : ∀ p ∈ piecesAfter .start calls, p.Unescaped := unescaped_piecesAfter hcalls .start
  have hcolored : colored.sink.output = s.output ++ pieceBytes true (piecesAfter .start calls) := by
    rw [output_after_ofSink hs, hmode]
  have hplain : plain.sink.output = s'.output ++ pieceBytes false (piecesAfter .start calls) := by
    rw [output_after_ofSink hs', hmode']
  -- a new reporter counts from zero
  obtain ⟨herrors, hwarnings⟩ : colored.errors = 0 + _ ∧ colored.warnings = 0 + _ :=
    counts_after _ calls
  obtain ⟨herrors', hwarnings'⟩ : plain.errors = 0 + _ ∧ plain.warnings = 0 + _ :=
    counts_after _ calls
  rw [Nat.zero_add] at herrors hwarnings herrors' hwarnings'
  refine ⟨pieceBytes true (piecesAfter .start calls), hcolored, ?_, ?_, herrors.trans herrors'.symm,
    hwarnings.trans hwarnings'.symm, herrors', hwarnings', ?_⟩
  · rw [stripped_pieceBytes hpieces, hplain]
  · rw [stripped_pieceBytes hpieces, pieceBytes_piecesAfter]
  · intro c hc
    have hlimit : colored.sink.limit = none := (limit_after _ calls).1.trans hs
    have hcolors : colored.colors = true := (colors_after _ calls).trans hmode
    have hmore : ∀ p ∈ c.pieces colored.tally, p.Unescaped := hc.pieces colored.tally
    refine ⟨pieceBytes true (c.pieces colored.tally), ?_, fun hne ↦ ?_⟩
    · rw [output_call, Sink.output_take_of_unlimited hlimit, hcolors, hcolored]
    · rw [← pieceBytes_append]
      refine getLast?_sequences_pieceBytes (List.forall_mem_append.mpr ⟨hpieces, hmore⟩) ?_
      rw [sequences_pieceBytes_append hpieces hmore]
      exact List.append_ne_nil_of_right_ne_nil _ hne

theorem decorated_of_calls_mixed :
    let c : LineChar := ⟨⟨"input", 1, 2⟩, [0x61, 0x62], .content 0x62⟩
    let l : Line := ⟨⟨"input", 2, 0⟩, [0xFF]⟩
    let calls : List Call := [.named .error (.char c) "bad", .summarize,
      .report (.line l) .warning "odd", .report (.span (.single c)) .note "here", .flush]
    let colored := (ofSink {} .auto true).after calls
    let plain := (ofSink {} .never true).after calls
    let text := utf8 ("input:1:2: error: bad\nab\n ^\n" ++ "error: 1 error emitted\n" ++
      "input:2: warning: odd\n?\n" ++ "input:1:2: note: here\nab\n ^\n")
    (∀ c ∈ calls, c.Unescaped) ∧ ColorMode.auto.usesColors true = true ∧
      ColorMode.never.usesColors true = false ∧ stripped colored.sink.output = text ∧
      plain.sink.output = text ∧ plain.errors = 1 ∧ plain.warnings = 1 := by
  intro c l calls colored plain text
  have hcalls : ∀ c ∈ calls, c.Unescaped := by decide
  have hcolors : ColorMode.auto.usesColors true = true := rfl
  have hcolors' : ColorMode.never.usesColors true = false := rfl
  have hlimit : ({} : Sink).limit = none := rfl
  obtain ⟨written, hcolored, hplain, htranscript, -, -, herrors, hwarnings, -⟩ :=
    decorated_of_calls hlimit hlimit hcolors hcolors' hcalls
  have hwritten : colored.sink.output = written := hcolored
  have htext : stripped written = text := htranscript.trans (by decide +kernel)
  rw [hwritten]
  exact ⟨hcalls, hcolors, hcolors', htext, hplain.trans htext, herrors, hwarnings⟩

end Reporter

end Linemark
