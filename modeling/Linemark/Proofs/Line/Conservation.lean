import Linemark.Line.Reader
import Linemark.Proofs.Line.Calls

/-!
# Where the bytes of a source are

At any time between two calls a byte of a source is in one of three places: in a line that was
taken, in the store of the buffer, or still in the script. `Account` says so, with the order of the
bytes and with the counts; it says nothing about reads, and so it holds as well right after a CR
whose lookahead filled the store, and after a failure that leaves part of the script behind.

## From calls on a buffer to calls on a reader

The lines of a source are taken in one way only, by `LineBuffer.nextLine`. `Takes s ls next` says
what taking the lines `ls` comes to, and it composes. So the account is drawn up once, for lines
taken in any number (`Takes.account`). What remains to be said of a reader is when it takes a line:
a line reader at every call, and a character reader at those that find it on none. `Interface` has
room for both, with the laws of one call as fields, so a run of calls is followed once
(`Interface.after_spec`) and not for each reader.
-/

namespace Linemark

namespace LineBuffer

/-! ## Taking lines -/

/-- The lines that so many calls give, and the buffer after them. -/
def takeLines (s : LineBuffer) : Nat → List RawLine × LineBuffer
  | 0 => ([], s)
  | n + 1 =>
    let rest := s.nextLine.2.takeLines n
    (s.nextLine.1.toList ++ rest.1, rest.2)

/-- Lines are taken on the way from one state to another: their bytes are handed out, and they are
the first ones of what is ahead. -/
structure Takes (s : LineBuffer) (ls : List RawLine) (next : LineBuffer) : Prop where
  /-- The bytes of the lines are handed out. -/
  handsOut : HandsOut s (RawLine.join ls) next
  /-- The lines were the next ones. -/
  ofBytes_ahead : RawLine.ofBytes s.ahead = ls ++ RawLine.ofBytes next.ahead

theorem Takes.refl {s : LineBuffer} (hs : s.Valid) : Takes s [] s := ⟨HandsOut.refl hs, rfl⟩

theorem Takes.trans {s t u : LineBuffer} {ls ms : List RawLine} (h : Takes s ls t)
    (h' : Takes t ms u) : Takes s (ls ++ ms) u where
  handsOut := by
    rw [RawLine.join, List.flatMap_append]
    exact h.handsOut.trans h'.handsOut
  ofBytes_ahead := by rw [h.ofBytes_ahead, h'.ofBytes_ahead, List.append_assoc]

/-- One call takes a line, or there is none to take. -/
theorem takes_nextLine {s : LineBuffer} (hs : s.Valid) :
    Takes s s.nextLine.1.toList s.nextLine.2 := by
  cases hn : s.nextLine with
  | mk line next =>
    cases line with
    | none =>
      obtain ⟨hout, -⟩ := spec_of_nextLine_eq_none hs hn
      refine ⟨hout, ?_⟩
      rw [hout.ahead_eq]
      rfl
    | some l =>
      obtain ⟨hout, hlines⟩ := spec_of_nextLine_eq_some hs hn
      refine ⟨?_, hlines⟩
      simpa using hout

/-- Any number of calls. -/
theorem takes_takeLines {s : LineBuffer} (hs : s.Valid) (n : Nat) :
    Takes s (s.takeLines n).1 (s.takeLines n).2 := by
  induction n generalizing s with
  | zero => exact Takes.refl hs
  | succ n ih =>
    have hstep := takes_nextLine hs
    exact hstep.trans (ih hstep.handsOut.valid)

/-! ## The account -/

/-- Where the bytes of a source are once some lines were taken off it. -/
structure Account (source : Source) (size : Nat) (ls : List RawLine) (s : LineBuffer) : Prop where
  /-- Every byte is in the lines, in the store or in the script, and in this order. -/
  remaining_eq : source.remaining = RawLine.join ls ++ s.pending ++ s.source.remaining
  /-- Those in the lines have been counted. -/
  consumed_eq : s.consumed = (RawLine.join ls).length
  /-- No more of them wait in the store than it has room for. -/
  length_pending_le : s.pending.length ≤ size
  /-- The lines are the first ones of what the source delivers. -/
  isPrefix : ls <+: RawLine.ofBytes source.delivered

theorem size_store_ofSize (source : Source) (size : Nat) :
    (ofSize source size).store.size = max size 1 := by
  simp [ofSize]

private theorem Takes.account {source : Source} {size : Nat} {ls : List RawLine} {s : LineBuffer}
    (h : Takes (ofSize source size) ls s) : Account source (max size 1) ls s where
  remaining_eq := by
    have hheld := h.handsOut.held_eq
    rw [held, held, pending_ofSize, List.nil_append, ← List.append_assoc] at hheld
    exact hheld
  consumed_eq := h.handsOut.consumed_eq.trans (Nat.zero_add _)
  length_pending_le := by
    rw [← size_store_ofSize source size, ← h.handsOut.size_eq, length_pending h.handsOut.valid]
    exact Nat.le_trans (Nat.sub_le _ _) h.handsOut.valid.stop_le_size
  isPrefix := by
    have hlines := h.ofBytes_ahead
    rw [ahead_ofSize] at hlines
    exact ⟨_, hlines.symm⟩

end LineBuffer

/-! ## Counting lines -/

/-- The number of the last of some lines, where the line before them has the number `n`. -/
def numberAfter (n : Nat) (ls : List RawLine) : Nat := ls.foldl (fun n _ ↦ Position.following n) n

theorem numberAfter_eq {n : Nat} (h : n ≤ Position.limit) (ls : List RawLine) :
    numberAfter n ls = min (n + ls.length) Position.limit := by
  induction ls generalizing n with
  | nil => exact (Nat.min_eq_left h).symm
  | cons l ls ih =>
    have hle : Position.following n ≤ Position.limit := Nat.min_le_right _ _
    change numberAfter (Position.following n) ls = _
    rw [ih hle, List.length_cons, Position.following]
    omega

/-! ## Readers -/

/-- The next line, if it is asked for and there is one, and the buffer after it. -/
def LineBuffer.takeIf (s : LineBuffer) (asks : Bool) : List RawLine × LineBuffer :=
  if asks then (s.nextLine.1.toList, s.nextLine.2) else ([], s)

/-- A way of reading a named input that takes lines off a buffer and counts them. Whatever it is
called for, a call takes the next line or none, and counts it. -/
structure Interface (ρ γ α : Type) where
  /-- The name of the input. -/
  filename : ρ → String
  /-- Where lines come from. -/
  input : ρ → LineBuffer
  /-- The number of the line that was taken last. -/
  line : ρ → Nat
  /-- How many bytes have been handed out. -/
  consumed : ρ → Nat
  /-- What a call gives and leaves behind. -/
  call : ρ → γ → α × ρ
  /-- The next call asks for a line. -/
  asks : ρ → Bool
  filename_call : ∀ r c, filename (call r c).2 = filename r
  input_call : ∀ r c, input (call r c).2 = ((input r).takeIf (asks r)).2
  line_call : ∀ r c, line (call r c).2 = numberAfter (line r) ((input r).takeIf (asks r)).1
  consumed_eq : ∀ r, consumed r = (input r).consumed

namespace Interface

variable {ρ γ α : Type} (reader : Interface ρ γ α)

/-- What a sequence of calls leaves behind. -/
def after (r : ρ) (calls : List γ) : ρ := afterCalls reader.call r calls

/-- The line that the next call takes off the source, if it takes one. -/
def pull (r : ρ) : List RawLine := ((reader.input r).takeIf (reader.asks r)).1

/-- The lines that a sequence of calls takes off the source. -/
def pulled (r : ρ) : List γ → List RawLine
  | [] => []
  | c :: calls => reader.pull r ++ pulled (reader.call r c).2 calls

/-- How often a sequence of calls asks for a line. -/
def asked (r : ρ) : List γ → Nat
  | [] => 0
  | c :: calls => asked (reader.call r c).2 calls + (reader.asks r).toNat

/-- **A run of calls** leaves the name as it is, takes as many lines off the buffer as it asks for,
and counts them. -/
theorem after_spec (r : ρ) (calls : List γ) :
    reader.filename (reader.after r calls) = reader.filename r ∧
      reader.input (reader.after r calls)
        = ((reader.input r).takeLines (reader.asked r calls)).2 ∧
      reader.pulled r calls = ((reader.input r).takeLines (reader.asked r calls)).1 ∧
      reader.line (reader.after r calls)
        = numberAfter (reader.line r) (reader.pulled r calls) := by
  induction calls generalizing r with
  | nil => exact ⟨rfl, rfl, rfl, rfl⟩
  | cons c calls ih =>
    obtain ⟨hfilename, hinput, hpulled, hline⟩ := ih (reader.call r c).2
    rw [reader.filename_call] at hfilename
    rw [reader.input_call] at hinput hpulled
    rw [reader.line_call] at hline
    refine ⟨hfilename, ?_, ?_, ?_⟩
    · refine hinput.trans ?_
      rw [asked]
      cases reader.asks r <;> rfl
    · rw [pulled, hpulled, pull, asked]
      cases reader.asks r <;> rfl
    · refine hline.trans ?_
      rw [pulled, pull, numberAfter, numberAfter, numberAfter, List.foldl_append]

variable {reader} {r : ρ}

private theorem takes_after (hr : (reader.input r).Valid) (calls : List γ) :
    LineBuffer.Takes (reader.input r) (reader.pulled r calls)
      (reader.input (reader.after r calls)) := by
  obtain ⟨-, hinput, hpulled, -⟩ := reader.after_spec r calls
  rw [hinput, hpulled]
  exact LineBuffer.takes_takeLines hr _

theorem valid_after (hr : (reader.input r).Valid) (calls : List γ) :
    (reader.input (reader.after r calls)).Valid :=
  (takes_after hr calls).handsOut.valid

/-- Where the bytes of a source are once it was read in some way, and what the reader says of it. -/
structure Account (reader : Interface ρ γ α) (source : Source) (ls : List RawLine) (r : ρ) : Prop
    extends LineBuffer.Account source 4096 ls (reader.input r) where
  /-- The reader counts the bytes of the lines that were taken. -/
  consumed_eq_length : reader.consumed r = (RawLine.join ls).length
  /-- Its line number tells how many lines that were. -/
  line_eq : reader.line r = min ls.length Position.limit

/-- What a reader has pulled since it was made is accounted for. -/
theorem account_after {source : Source} (hinput : reader.input r = .ofSource source)
    (hline : reader.line r = 0) (calls : List γ) :
    reader.Account source (reader.pulled r calls) (reader.after r calls) := by
  have hvalid : (reader.input r).Valid := by
    rw [hinput]
    exact LineBuffer.valid_ofSize source LineBuffer.defaultSize
  have htakes := takes_after hvalid calls
  rw [hinput] at htakes
  have haccount := htakes.account
  refine ⟨haccount, ?_, ?_⟩
  · rw [reader.consumed_eq, haccount.consumed_eq]
  · rw [(reader.after_spec r calls).2.2.2, hline, numberAfter_eq (Nat.zero_le _), Nat.zero_add]

end Interface

/-! ## Calls of a line reader -/

namespace LineReader

/-- What a line reader can be asked for. -/
inductive Call
  /-- The next line. -/
  | line
  /-- The next line, with the way it ends. -/
  | terminated
  deriving DecidableEq, Repr

/-- What a call gives, and the reader after it. -/
def call (r : LineReader) : Call → Option (Line × Option Terminator) × LineReader
  | .line => (r.readLine.1.map fun l ↦ (l, none), r.readLine.2)
  | .terminated => (r.readTerminated.1.map fun l ↦ (l.1, some l.2), r.readTerminated.2)

theorem call_snd (r : LineReader) (c : Call) : (r.call c).2 = r.readTerminated.2 := by
  cases c <;> rfl

/-- A line reader asks for a line at every call. -/
def interface : Interface LineReader Call (Option (Line × Option Terminator)) where
  filename := filename
  input := input
  line := line
  consumed := consumed
  call := call
  asks _ := true
  filename_call r c := by
    rw [call_snd]
    fun_cases readTerminated r <;> rfl
  input_call r c := by
    rw [call_snd]
    fun_cases readTerminated r <;> simp [LineBuffer.takeIf, *]
  line_call r c := by
    rw [call_snd, LineBuffer.takeIf, if_pos rfl]
    fun_cases readTerminated r with
    | case1 input hn =>
      rw [hn]
      rfl
    | case2 split input hn =>
      rw [hn]
      rfl
  consumed_eq _ := rfl

/-- The reader after a sequence of calls. -/
def after (r : LineReader) (calls : List Call) : LineReader := interface.after r calls

/-- The lines that a sequence of calls takes off the source. -/
def pulled (r : LineReader) (calls : List Call) : List RawLine := interface.pulled r calls

end LineReader

/-! ## Calls of a character reader -/

namespace CharReader

theorem call_snd_eq_or (r : CharReader) (c : Call) :
    (r.call c).2 = r.settle ∨
      (r.call c).2 = { r.settle with current := r.settle.current.bind Cursor.next? } := by
  cases c with
  | peek => exact .inl rfl
  | skip => exact .inr rfl
  | read =>
    rw [call]
    fun_cases read r with
    | case1 t hp =>
      obtain rfl : r.settle = t := congrArg Prod.snd hp
      exact .inl rfl
    | case2 c t hp =>
      -- after the look the reader is on a line, and passing over takes no other one
      obtain ⟨hhere, rfl⟩ : r.settle.here = some c ∧ r.settle = t := by simpa [peek] using hp
      obtain ⟨d, hd, -⟩ := Option.map_eq_some_iff.mp hhere
      rw [skip, settle_of_current hd]
      exact .inr rfl

theorem call_snd (r : CharReader) (c : Call) :
    (r.call c).2.filename = r.settle.filename ∧ (r.call c).2.input = r.settle.input ∧
      (r.call c).2.line = r.settle.line := by
  obtain h | h := r.call_snd_eq_or c
  · rw [h]
    exact ⟨rfl, rfl, rfl⟩
  · rw [h]
    exact ⟨rfl, rfl, rfl⟩

/-- A character reader asks for a line if it is on none. -/
def interface : Interface CharReader Call (Option LineChar) where
  filename := filename
  input := input
  line := line
  consumed := consumed
  call := call
  asks r := r.current.isNone
  filename_call r c := by
    rw [(r.call_snd c).1]
    fun_cases settle r <;> rfl
  input_call r c := by
    rw [(r.call_snd c).2.1]
    fun_cases settle r <;> simp [LineBuffer.takeIf, *]
  line_call r c := by
    rw [(r.call_snd c).2.2]
    fun_cases settle r <;> simp [LineBuffer.takeIf, numberAfter, *]
  consumed_eq _ := rfl

/-- The lines that a sequence of calls takes off the source. -/
def pulled (r : CharReader) (calls : List Call) : List RawLine := interface.pulled r calls

end CharReader

/-! ## The account of every interface -/

/-- **Nothing is lost, doubled or put in another place**, whichever way lines are taken off a source
and however often. The lines taken, what waits in the store and what is left in the script make up
the bytes of the source, also those behind a failure. A reader counts the bytes of the lines taken,
and the number of the last line tells how many lines these are. -/
theorem account_of_calls (source : Source) :
    (∀ size n, LineBuffer.Account source (max size 1)
      ((LineBuffer.ofSize source size).takeLines n).1
      ((LineBuffer.ofSize source size).takeLines n).2) ∧
    (∀ (filename : String) (calls : List LineReader.Call),
      let r := LineReader.ofSource filename source
      LineBuffer.Account source 4096 (r.pulled calls) (r.after calls).input ∧
        (r.after calls).consumed = (RawLine.join (r.pulled calls)).length ∧
        (r.after calls).line = min (r.pulled calls).length Position.limit) ∧
    (∀ (filename : String) (calls : List CharReader.Call),
      let r := CharReader.ofSource filename source
      LineBuffer.Account source 4096 (r.pulled calls) (r.after calls).input ∧
        (r.after calls).consumed = (RawLine.join (r.pulled calls)).length ∧
        (r.after calls).line = min (r.pulled calls).length Position.limit) := by
  refine ⟨?_, ?_, ?_⟩
  · intro size n
    exact (LineBuffer.takes_takeLines (LineBuffer.valid_ofSize source size) n).account
  · intro filename calls r
    have haccount := LineReader.interface.account_after (r := r) rfl rfl calls
    exact ⟨haccount.toAccount, haccount.consumed_eq_length, haccount.line_eq⟩
  · intro filename calls r
    have haccount := CharReader.interface.account_after (r := r) rfl rfl calls
    exact ⟨haccount.toAccount, haccount.consumed_eq_length, haccount.line_eq⟩

end Linemark
