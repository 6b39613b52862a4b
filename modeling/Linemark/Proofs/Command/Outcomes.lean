import Linemark.Command
import Linemark.Proofs.Command.Files
import Linemark.Proofs.Diagnostic.Output
import Linemark.Proofs.Listing.Rows
import Linemark.Proofs.Mark.Searching
import Linemark.Proofs.Stream.Writing

/-!
# How runs end

A run of `mark` goes through three gates: the arguments have to be a request, the path has to open,
and the input has to have what is asked for. `Command.Marks` lists the four ends that this leaves,
each with all that it writes. Whatever is said about a run of `mark` is read off that list: nothing
goes to standard output, the code is zero at the last end only, and what the others write is the
text of one error. No part of a report comes before it, since a request that is not met leaves the
reporter as it was. Whether the last gate opens is decided by coordinates (`Request.IsMetBy`).

A listing has no ends of its own. Its rows are put together and written at once
(`Command.run_list`), and what becomes of them is a matter of standard output alone.

All of this holds whatever there is to be opened, as long as the lines and columns of each input can
be counted: no file system is needed for it, and a file tree is one case (`FileTree.openPath`).
-/

namespace Linemark

/-! ## Meeting a request -/

namespace Request

/-- The input has everything that a request points at, and a span does not end before it starts. -/
def IsMetBy (request : Request) (ls : List RawLine) : Prop :=
  request.first.IsIn ls ∧ ∀ last ∈ request.last, last.IsIn ls ∧ last.order request.first ≠ .lt

instance (request : Request) (ls : List RawLine) : Decidable (request.IsMetBy ls) :=
  inferInstanceAs (Decidable (request.first.IsIn ls ∧
    ∀ last ∈ request.last, last.IsIn ls ∧ last.order request.first ≠ .lt))

/-- A request has a report exactly if the input meets it. -/
theorem exists_reportOn_iff {source : Source} {ls : List RawLine}
    (hls : RawLine.ofBytes source.delivered = ls) (h : RawLine.Addressable ls)
    (filename : String) (request : Request) :
    (∃ report, (CharReader.ofSource filename source).reportOn request = .ok report) ↔
      request.IsMetBy ls := by
  by_cases hfirst : request.first.IsIn ls
  · obtain ⟨c, hc⟩ := hfirst.exists_picks filename
    rw [IsMetBy, and_iff_right hfirst]
    cases hlast : request.last with
    | none => simp [CharReader.reportOn_of_char hls h hc hlast]
    | some last =>
      by_cases hin : last.IsIn ls
      · obtain ⟨d, hd⟩ := hin.exists_picks filename
        have hbetween := hc.between_eq hd
        rw [CharReader.reportOn_of_span hls h hc hlast hd]
        by_cases hlt : last.order request.first = .lt
        · rw [if_pos hlt] at hbetween
          simp [hbetween, hlt, Except.map, Except.mapError]
        · rw [if_neg hlt] at hbetween
          obtain ⟨s, hs, -⟩ := hbetween
          simp [hs, hin, hlt, Except.map, Except.mapError]
      · simp [CharReader.reportOn_of_last_missing hls h hc hlast hin, hin]
  · simp [CharReader.reportOn_of_first_missing hls h hfirst, IsMetBy, hfirst]

end Request

namespace Command

/-! ## The ends of a run of `mark` -/

/-- What is done with a report. -/
def reportCalls (request : Request) (report : Report) : List Reporter.Call :=
  [.report report request.presentation.severity request.presentation.message, .summarize, .flush]

variable {openPath : String → Except OpenError Source} {stdout : Sink} {isTerminal : Bool}
  {arguments : List String} {outcome : Outcome}

/-- The ends that a run of `mark` with the given arguments can come to. -/
inductive Marks (openPath : String → Except OpenError Source) (stdout : Sink) (isTerminal : Bool)
    (arguments : List String) : Outcome → Prop
  /-- The arguments are no request: the error, an empty row, and how the command is called. -/
  | wrong {error : ArgumentError} (harguments : Request.ofArguments arguments = .error error) :
    Marks openPath stdout isTerminal arguments
      ⟨stdout, errorRow error.message ++ [lineFeed] ++ Usage.mark, .failure⟩
  /-- The path does not open. -/
  | unopened {request : Request} {error : OpenError}
    (harguments : Request.ofArguments arguments = .ok request)
    (hopen : openPath request.path = .error error) :
    Marks openPath stdout isTerminal arguments ⟨stdout, errorRow error.describe, .failure⟩
  /-- The input does not meet the request. -/
  | unmet {request : Request} {source : Source} {error : SearchError}
    (harguments : Request.ofArguments arguments = .ok request)
    (hopen : openPath request.path = .ok source)
    (hreport : (CharReader.ofSource request.path source).reportOn request = .error error) :
    Marks openPath stdout isTerminal arguments
      ⟨stdout, errorRow (request.path ++ ": " ++ error.message), .failure⟩
  /-- The request is met: the report, and the summary. -/
  | met {request : Request} {source : Source} {report : Report}
    (harguments : Request.ofArguments arguments = .ok request)
    (hopen : openPath request.path = .ok source)
    (hreport : (CharReader.ofSource request.path source).reportOn request = .ok report) :
    Marks openPath stdout isTerminal arguments
      ⟨stdout, pieceBytes (request.presentation.color.usesColors isTerminal)
        (Reporter.piecesAfter .start (reportCalls request report)), .success⟩

/-- **Every run of `mark` comes to one of these ends.** -/
theorem marks_run (openPath : String → Except OpenError Source) (stdout : Sink)
    (isTerminal : Bool) (arguments : List String) :
    Marks openPath stdout isTerminal arguments
      ((ofArguments ("mark" :: arguments)).run openPath stdout isTerminal) := by
  cases harguments : Request.ofArguments arguments with
  | error error =>
    have hcommand : ofArguments ("mark" :: arguments) = .markWrongly error := by
      simp [ofArguments, harguments]
    rw [hcommand]
    exact .wrong harguments
  | ok request =>
    have hcommand : ofArguments ("mark" :: arguments) = .mark request := by
      simp [ofArguments, harguments]
    rw [hcommand, run]
    cases hopen : openPath request.path with
    | error error => exact .unopened harguments hopen
    | ok source =>
      dsimp only
      rw [runMark]
      cases hreport : (CharReader.ofSource request.path source).reportOn request with
      | error error =>
        rw [Reporter.mark_of_reportOn_eq_error hreport]
        exact .unmet harguments hopen hreport
      | ok report =>
        have houtput := Reporter.output_after_ofSink (s := {}) rfl request.presentation.color
          isTerminal (reportCalls request report)
        rw [Reporter.mark_of_reportOn_eq_ok hreport]
        change Marks _ _ _ _ ⟨stdout, ((Reporter.ofSink {} request.presentation.color
          isTerminal).after (reportCalls request report)).sink.output, .success⟩
        rw [houtput]
        exact .met harguments hopen hreport

namespace Marks

private theorem stdout_eq (h : Marks openPath stdout isTerminal arguments outcome) :
    outcome.stdout = stdout := by
  cases h <;> rfl

/-- When a run of `mark` goes well: all three gates were open. -/
theorem code_eq_zero_iff (h : Marks openPath stdout isTerminal arguments outcome)
    (haddressable : AddressableInputs openPath) :
    outcome.code = 0 ↔ ∃ request source, Request.ofArguments arguments = .ok request ∧
      openPath request.path = .ok source ∧
        request.IsMetBy (RawLine.ofBytes source.delivered) := by
  rw [Outcome.code_eq_zero_iff]
  cases h with
  | wrong harguments => simp [harguments]
  | unopened harguments hopen => simp [harguments, hopen]
  | @unmet request source error harguments hopen hreport =>
    have hmet := Request.exists_reportOn_iff rfl (haddressable _ _ hopen) request.path request
    simp [harguments, hopen, ← hmet, hreport]
  | @met request source report harguments hopen hreport =>
    have hmet := Request.exists_reportOn_iff rfl (haddressable _ _ hopen) request.path request
    simp [harguments, hopen, ← hmet, hreport]

/-- What a run of `mark` writes if it goes well is what a new reporter writes for the request:
the report and the summary. -/
theorem stderr_of_code_eq_zero (h : Marks openPath stdout isTerminal arguments outcome)
    (hcode : outcome.code = 0) :
    ∃ request source report reporter, Request.ofArguments arguments = .ok request ∧
      openPath request.path = .ok source ∧
      (Reporter.ofSink {} request.presentation.color isTerminal).mark
        (.ofSource request.path source) request = (.ok (), reporter) ∧
      outcome.stderr = reporter.sink.output ∧
      outcome.stderr = pieceBytes (request.presentation.color.usesColors isTerminal)
        (Reporter.piecesAfter .start (reportCalls request report)) := by
  rw [Outcome.code_eq_zero_iff] at hcode
  cases h with
  | wrong | unopened | unmet => cases hcode
  | @met request source report harguments hopen hreport =>
    refine ⟨request, source, report, _, harguments, hopen,
      Reporter.mark_of_reportOn_eq_ok hreport, ?_, rfl⟩
    exact (Reporter.output_after_ofSink (s := {}) rfl request.presentation.color isTerminal
      (reportCalls request report)).symm

/-- What a run of `mark` writes if it does not go well is the text of one error. Which one is
decided by the gate that was shut. -/
theorem stderr_of_code_ne_zero (h : Marks openPath stdout isTerminal arguments outcome)
    (hcode : outcome.code ≠ 0) :
    outcome.code = 1 ∧ utf8 "error: " <+: outcome.stderr ∧
      ((∃ error, Request.ofArguments arguments = .error error ∧
          outcome.stderr = errorRow error.message ++ [lineFeed] ++ Usage.mark) ∨
        (∃ request error, Request.ofArguments arguments = .ok request ∧
          openPath request.path = .error error ∧ outcome.stderr = errorRow error.describe) ∨
        ∃ request source error, Request.ofArguments arguments = .ok request ∧
          openPath request.path = .ok source ∧
          (∀ reporter : Reporter, reporter.mark (.ofSource request.path source) request
            = (.error error, reporter)) ∧
          outcome.stderr = errorRow (request.path ++ ": " ++ error.message)) := by
  have hrow : ∀ (text : String) (more : Bytes), utf8 "error: " <+: errorRow text ++ more := by
    intro text more
    rw [errorRow, utf8_append, utf8_append, List.append_assoc, List.append_assoc]
    exact List.prefix_append _ _
  cases h with
  | wrong harguments =>
    refine ⟨rfl, ?_, .inl ⟨_, harguments, rfl⟩⟩
    rw [List.append_assoc]
    exact hrow _ _
  | unopened harguments hopen =>
    refine ⟨rfl, ?_, .inr (.inl ⟨_, _, harguments, hopen, rfl⟩)⟩
    rw [← List.append_nil (errorRow _)]
    exact hrow _ _
  | unmet harguments hopen hreport =>
    refine ⟨rfl, ?_, .inr (.inr ⟨_, _, _, harguments, hopen,
      fun _ ↦ Reporter.mark_of_reportOn_eq_error hreport, rfl⟩)⟩
    rw [← List.append_nil (errorRow _)]
    exact hrow _ _
  | met => exact absurd rfl hcode

end Marks

/-! ## Standard output -/

theorem unlessLost_eq_error_iff {written : Except Refused Sink} {refused : Refused} :
    unlessLost written = .error refused ↔
      written = .error refused ∧ refused.failure ≠ .system .badDescriptor := by
  cases written with
  | ok sink => simp [unlessLost]
  | error first =>
    rw [unlessLost, Except.error.injEq]
    split
    next hlost =>
      refine iff_of_false (fun h ↦ nomatch h) ?_
      rintro ⟨rfl, hne⟩
      exact hne hlost
    next hne =>
      rw [Except.error.injEq]
      exact ⟨fun h ↦ ⟨h, h ▸ hne⟩, And.left⟩

private theorem print_of_lost (hlost : stdout.reason = .system .badDescriptor) (bs : Bytes) :
    print stdout bs = .ok (stdout.take bs) := by
  by_cases hfits : stdout.Fits bs
  · rw [print, Sink.writeAll_of_fits hfits, unlessLost]
  · rw [print, Sink.writeAll_of_not_fits hfits, unlessLost, if_pos hlost]

private theorem print_of_not_lost (hlost : stdout.reason ≠ .system .badDescriptor) (bs : Bytes) :
    print stdout bs = stdout.writeAll bs := by
  by_cases hfits : stdout.Fits bs
  · rw [print, Sink.writeAll_of_fits hfits, unlessLost]
  · rw [print, Sink.writeAll_of_not_fits hfits, unlessLost, if_neg hlost]

/-- Printing in two parts is printing at once, also where what is printed is lost. -/
theorem print_append (stdout : Sink) (bs cs : Bytes) :
    (print stdout bs).bind (fun t ↦ print t cs) = print stdout (bs ++ cs) := by
  by_cases hlost : stdout.reason = .system .badDescriptor
  · rw [print_of_lost hlost, print_of_lost hlost, ← Sink.take_append]
    exact @print_of_lost (stdout.take bs) hlost cs
  · rw [print_of_not_lost hlost, print_of_not_lost hlost, ← Sink.writeAll_append]
    by_cases hfits : stdout.Fits bs
    · rw [Sink.writeAll_of_fits hfits]
      exact @print_of_not_lost (stdout.take bs) hlost cs
    · rw [Sink.writeAll_of_not_fits hfits]
      rfl

/-- Printing comes to a result, write by write. -/
def Prints (stdout : Sink) (bs : Bytes) (result : Except Refused Sink) : Prop :=
  ∃ written, stdout.Writes bs written ∧ unlessLost written = result

/-- Every write to standard output fails, and this not because nobody reads. A write that is
interrupted is made again and comes to no result, and one that is lost does not fail. -/
def CannotPrint (stdout : Sink) : Prop :=
  ∀ bs : Bytes, bs ≠ [] →
    ∃ refused, Prints stdout bs (.error refused) ∧ refused.failure.kind ≠ .brokenPipe

/-- When every write fails: there is no room, and refused bytes are neither tried again nor
lost. -/
theorem cannotPrint_iff :
    CannotPrint stdout ↔ stdout.IsFull ∧ stdout.reason.kind ≠ .interrupted ∧
      stdout.reason.kind ≠ .brokenPipe ∧ stdout.reason ≠ .system .badDescriptor := by
  constructor
  · intro h
    obtain ⟨refused, ⟨written, hwrites, hresult⟩, hpipe⟩ := h [lineFeed] (List.cons_ne_nil _ _)
    obtain ⟨rfl, hlost⟩ := unlessLost_eq_error_iff.mp hresult
    obtain ⟨hreason, hkind⟩ := hwrites.of_error
    have hfits : ¬stdout.Fits [lineFeed] := by
      intro hfits
      cases (Sink.writeAll_of_fits hfits).symm.trans hwrites.writeAll_eq
    rw [hreason] at hpipe hlost
    exact ⟨Sink.isFull_of_not_fits hfits, hkind, hpipe, hlost⟩
  · rintro ⟨hfull, hkind, hpipe, hlost⟩ bs hbs
    have hwrites := Sink.writes_writeAll hkind bs
    rw [Sink.writeAll_of_isFull hfull hbs] at hwrites
    exact ⟨_, ⟨_, hwrites, unlessLost_eq_error_iff.mpr ⟨rfl, hlost⟩⟩, hpipe⟩

/-! ## Listings -/

/-- The bytes of a listing of some lines. -/
def listing (kind : ListingKind) (path : String) (ls : List RawLine) : Bytes :=
  match kind with
  | .lines => (linesAfter path 0 ls).flatMap fun l ↦ l.1.row l.2
  | .chars => (charsAfter path 0 ls).flatMap LineChar.row

theorem listing_eq_nil_iff {kind : ListingKind} {path : String} {ls : List RawLine} :
    listing kind path ls = [] ↔ ls = [] := by
  have hrows : ∀ {α : Type} (row : α → Bytes) (xs : List α), (∀ x, row x ≠ []) →
      (xs.flatMap row = [] ↔ xs = []) := by
    intro α row xs hrow
    rw [List.flatMap_eq_nil_iff, List.eq_nil_iff_forall_not_mem]
    exact forall_congr' fun x ↦ imp_congr_right fun _ ↦ iff_false_intro (hrow x)
  cases kind with
  | lines =>
    rw [listing, hrows _ _ fun l ↦ l.1.row_ne_nil l.2, linesAfter_eq_nil_iff]
  | chars =>
    rw [listing, hrows _ _ LineChar.row_ne_nil, charsAfter_eq_nil_iff]

theorem writeListing_eq (stdout : Sink) (kind : ListingKind) (path : String) (source : Source) :
    writeListing stdout kind path source
      = stdout.writeAll (listing kind path (RawLine.ofBytes source.delivered)) := by
  cases kind with
  | lines =>
    change (stdout.listLines (.ofSource path source)).map Prod.snd = _
    rw [Sink.listLines_eq _ (LineReader.valid_ofSource path source), LineReader.ahead_ofSource,
      listing]
    generalize Sink.writeAll _ _ = written
    cases written with
    | error refused => rfl
    | ok t => rfl
  | chars =>
    change (stdout.listChars (.ofSource path source)).map Prod.snd = _
    rw [Sink.listChars_eq _ (CharReader.valid_ofSource path source),
      CharReader.ahead_ofSource_eq, listing]
    generalize Sink.writeAll _ _ = written
    cases written with
    | error refused => rfl
    | ok t => rfl

/-- A run of a listing of a path that opens. -/
theorem run_list {path : String} {source : Source} (hopen : openPath path = .ok source)
    (kind : ListingKind) (rest : List String) (stdout : Sink) (isTerminal : Bool) :
    (ofArguments (kind.name :: path :: rest)).run openPath stdout isTerminal
      = ofListed (print stdout (listing kind path (RawLine.ofBytes source.delivered))) := by
  have hcommand : ofArguments (kind.name :: path :: rest) = .list kind path := by
    cases kind <;> rfl
  rw [hcommand, run, hopen, print, ← writeListing_eq]

private theorem run_list_of_unlimited {path : String} {source : Source}
    (hopen : openPath path = .ok source) (kind : ListingKind) (rest : List String)
    (hstdout : stdout.limit = none) (isTerminal : Bool) :
    let outcome := (ofArguments (kind.name :: path :: rest)).run openPath stdout isTerminal
    writeListing stdout kind path source = .ok outcome.stdout ∧
      outcome.stdout.output
        = stdout.output ++ listing kind path (RawLine.ofBytes source.delivered) ∧
      outcome.stderr = [] ∧ outcome.code = 0 := by
  intro outcome
  let rows := listing kind path (RawLine.ofBytes source.delivered)
  have hwritten : stdout.writeAll rows = .ok (stdout.take rows) :=
    Sink.writeAll_of_fits (Sink.fits_of_unlimited hstdout rows)
  have houtcome : outcome = ⟨stdout.take rows, [], .success⟩ := by
    refine (run_list hopen kind rest stdout isTerminal).trans ?_
    rw [print, hwritten]
    rfl
  rw [houtcome]
  exact ⟨(writeListing_eq stdout kind path source).trans hwritten,
    Sink.output_take_of_unlimited hstdout rows, rfl, rfl⟩

private theorem run_list_of_cannotPrint {path : String} {source : Source}
    (hopen : openPath path = .ok source) (kind : ListingKind) (rest : List String)
    (hstdout : CannotPrint stdout) (isTerminal : Bool) :
    (ofArguments (kind.name :: path :: rest)).run openPath stdout isTerminal
      = if RawLine.ofBytes source.delivered = [] then ⟨stdout, [], .success⟩
        else ⟨stdout, errorRow ("writing output: " ++ stdout.reason.message), .failure⟩ := by
  obtain ⟨hfull, -, hpipe, hlost⟩ := cannotPrint_iff.mp hstdout
  rw [run_list hopen, print_of_not_lost hlost]
  by_cases hls : RawLine.ofBytes source.delivered = []
  · rw [if_pos hls, listing_eq_nil_iff.mpr hls, Sink.writeAll_nil, ofListed]
  · have hrows : listing kind path (RawLine.ofBytes source.delivered) ≠ [] :=
      mt listing_eq_nil_iff.mp hls
    rw [if_neg hls, Sink.writeAll_of_isFull hfull hrows, ofListed, if_neg hpipe]

/-! ## Telling outcomes apart -/

/-- **A run keeps its outcomes apart**, whatever there is to be opened and whatever the arguments
are. A run of `mark` writes nothing to standard output. Its code is zero exactly if the arguments
are a request, the path opens and the input meets the request, and then standard error has what is
written for the request and nothing else. Otherwise the code is one, and standard error has the text
of one error and no part of a report. A listing has the rows of the input on standard output and
nothing on standard error; where every write to standard output fails, it fails exactly if the input
has a line. -/
theorem run_outcomes_apart (openPath : String → Except OpenError Source)
    (h : AddressableInputs openPath) (stdout : Sink) :
    (∀ arguments : List String,
      let outcome := (ofArguments ("mark" :: arguments)).run openPath stdout false
      outcome.stdout = stdout ∧
      (outcome.code = 0 ↔ ∃ request source, Request.ofArguments arguments = .ok request ∧
        openPath request.path = .ok source ∧
          request.IsMetBy (RawLine.ofBytes source.delivered)) ∧
      (outcome.code = 0 → ∃ request source report reporter,
        Request.ofArguments arguments = .ok request ∧ openPath request.path = .ok source ∧
        (Reporter.ofSink {} request.presentation.color false).mark
          (.ofSource request.path source) request = (.ok (), reporter) ∧
        outcome.stderr = reporter.sink.output ∧
        outcome.stderr = pieceBytes (request.presentation.color.usesColors false)
          (Reporter.piecesAfter .start (reportCalls request report))) ∧
      (outcome.code ≠ 0 → outcome.code = 1 ∧ utf8 "error: " <+: outcome.stderr ∧
        ((∃ error, Request.ofArguments arguments = .error error ∧
            outcome.stderr = errorRow error.message ++ [lineFeed] ++ Usage.mark) ∨
          (∃ request error, Request.ofArguments arguments = .ok request ∧
            openPath request.path = .error error ∧
              outcome.stderr = errorRow error.describe) ∨
          ∃ request source error, Request.ofArguments arguments = .ok request ∧
            openPath request.path = .ok source ∧
            (∀ reporter : Reporter, reporter.mark (.ofSource request.path source) request
              = (.error error, reporter)) ∧
            outcome.stderr = errorRow (request.path ++ ": " ++ error.message)))) ∧
    (∀ (kind : ListingKind) (path : String) (rest : List String) (source : Source),
      openPath path = .ok source →
      let outcome := (ofArguments (kind.name :: path :: rest)).run openPath stdout false
      let ls := RawLine.ofBytes source.delivered
      (stdout.limit = none →
        writeListing stdout kind path source = .ok outcome.stdout ∧
        outcome.stdout.output = stdout.output ++ listing kind path ls ∧
        outcome.stderr = [] ∧ outcome.code = 0) ∧
      (CannotPrint stdout →
        (outcome.code = 1 ↔ ls ≠ []) ∧
        (ls = [] → outcome.code = 0 ∧ outcome.stderr = []))) := by
  refine ⟨?_, ?_⟩
  · intro arguments outcome
    have hmarks : Marks openPath stdout false arguments outcome := marks_run _ _ _ _
    exact ⟨hmarks.stdout_eq, hmarks.code_eq_zero_iff h, hmarks.stderr_of_code_eq_zero,
      hmarks.stderr_of_code_ne_zero⟩
  · intro kind path rest source hopen outcome ls
    refine ⟨fun hstdout ↦ run_list_of_unlimited hopen kind rest hstdout false, ?_⟩
    intro hstdout
    have houtcome : outcome = _ := run_list_of_cannotPrint hopen kind rest hstdout false
    rw [houtcome]
    by_cases hls : ls = []
    · simp [ls, hls, Outcome.code, Exit.code]
    · simp [ls, hls, Outcome.code, Exit.code]

/-- A tree with one file of one line, which is marked at the end of the line and behind it, and
listed to a standard output that takes everything and to one that is on a full device. -/
theorem run_outcomes_apart_small :
    let tree : FileTree := ⟨[(["f"], .file [0x61, 0x0A])]⟩
    let full : Sink := { limit := some 0, refusal := some (.system .noSpaceLeft) }
    let outcome (arguments : List String) (stdout : Sink) : Outcome :=
      (ofArguments arguments).run tree.openPath stdout false
    (AddressableInputs tree.openPath ∧ tree.openPath "f" = .ok (.ofBytes [0x61, 0x0A])) ∧
      ((outcome ["mark", "f", "1:2"] {}).code = 0 ∧
        (outcome ["mark", "f", "2:1"] {}).code ≠ 0 ∧
        utf8 "error: " <+: (outcome ["mark", "f", "2:1"] {}).stderr) ∧
      (outcome ["lines", "f"] {}).stdout.output = utf8 "f:1: [LF] a\n" ∧
      (CannotPrint full ∧ (outcome ["lines", "f"] full).code = 1) := by
  intro tree full outcome
  have hls : RawLine.ofBytes (Source.ofBytes [0x61, 0x0A]).delivered = [⟨[0x61], .lf⟩] := by
    rw [Source.delivered_ofBytes]
    change RawLine.ofBytes (RawLine.join [⟨[0x61], .lf⟩]) = _
    exact RawLine.ofBytes_join (by decide)
  have hopen : tree.openPath "f" = .ok (.ofBytes [0x61, 0x0A]) := by
    have hlength : ¬FileTree.longestPath < "f".utf8ByteSize := by decide
    have hstart : FileTree.start "f" = .ok (.inside [] .directory) := by
      simp [FileTree.start, hlength]
      rfl
    have hwalk : tree.walk "f" = .ok (.inside ["f"] (.file [0x61, 0x0A])) := by
      rw [FileTree.walk, hstart]
      rfl
    rw [FileTree.openPath, hwalk]
    rfl
  have htree : tree.Addressable := by
    intro names content hfind
    obtain rfl : [0x61, 0x0A] = content := by
      rw [FileTree.find?, List.lookup_cons] at hfind
      split at hfind
      · exact Entry.file.inj (Option.some.inj hfind)
      · cases hfind
    rw [Source.delivered_ofBytes] at hls
    rw [hls]
    decide
  have hfull : CannotPrint full :=
    cannotPrint_iff.mpr ⟨⟨0, rfl, Nat.zero_le _⟩, by decide, by decide, by decide⟩
  obtain ⟨hmark, hlist⟩ := run_outcomes_apart tree.openPath htree.inputs {}
  obtain ⟨-, hlistFull⟩ := run_outcomes_apart tree.openPath htree.inputs full
  have hmet : (outcome ["mark", "f", "1:2"] {}).code = 0 :=
    (hmark ["f", "1:2"]).2.1.mpr ⟨⟨"f", ⟨1, 2⟩, none, {}⟩, _, rfl, hopen, by rw [hls]; decide⟩
  have hunmet : (outcome ["mark", "f", "2:1"] {}).code ≠ 0 := by
    intro hcode
    obtain ⟨request, source, hrequest, hsource, hin⟩ := (hmark ["f", "2:1"]).2.1.mp hcode
    obtain rfl : ⟨"f", ⟨2, 1⟩, none, {}⟩ = request := Except.ok.inj hrequest
    obtain rfl : Source.ofBytes [0x61, 0x0A] = source := Except.ok.inj (hopen.symm.trans hsource)
    rw [hls] at hin
    exact absurd hin (by decide)
  have hlines := ((hlist .lines "f" [] _ hopen).1 rfl).2.1
  have hrefused := ((hlistFull .lines "f" [] _ hopen).2 hfull).1
  rw [hls] at hlines hrefused
  refine ⟨⟨htree.inputs, hopen⟩, ⟨hmet, hunmet, ((hmark ["f", "2:1"]).2.2.2 hunmet).2.1⟩,
    hlines.trans (by decide), hfull, hrefused.mpr (by decide)⟩

end Command

end Linemark
