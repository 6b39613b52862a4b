import Linemark.Line.Buffer

/-!
# Looking before taking

A window takes lines off a source as a line buffer does, and looks before it takes anything: it
stops with a `Fault` where an index would leave the store, where a refill would overwrite bytes that
wait, or where the indices are out of order at the head of a loop or at the start of an operation.
Nothing is said of the source but its function `read`, which may go on for ever.

A line buffer has no such faults to report, since its definitions give an answer for every index.
What is proved here is that a window has none to report either (`ends_takeLines`): the only thing
that can stop it is that the steps it was granted are used up, as they are by a source of endless
interruptions or by an endless line. That a line buffer and a window do the same is another matter,
and is left to the module about bounds.

`Ends` is what is known of a run, and it has one rule for going on after a part of it (`Ends.bind`)
and one for looking (`Ends.demand`). So each operation needs what it demands of its caller and what
it leaves to it, and no run is ever unfolded twice.
-/

namespace Linemark

/-! ## Faults -/

/-- Why a window stops. -/
inductive Fault
  /-- The indices are out of order at the head of a loop or at the start of an operation. -/
  | disorder
  /-- Bytes are read while others wait. -/
  | early
  /-- A byte or a stretch is taken from where there is none. -/
  | outside
  /-- A store in which no byte waits is looked at. -/
  | bare
  /-- More bytes are handed out than wait. -/
  | overrun
  /-- The steps are used up. -/
  | outOfSteps
  deriving DecidableEq, Repr

/-- Stops with a fault unless a condition holds. -/
def demand (p : Prop) [Decidable p] (fault : Fault) : Except Fault Unit :=
  if p then .ok () else .error fault

/-- The byte at an index. -/
def byteAt (bs : Bytes) (i : Nat) : Except Fault UInt8 :=
  match bs[i]? with
  | some b => .ok b
  | none => .error .outside

/-- The bytes from an index up to another one. -/
def stretch (bs : Bytes) (i j : Nat) : Except Fault Bytes := do
  demand (i ≤ j ∧ j ≤ bs.length) .outside
  return (bs.take j).drop i

@[simp] theorem ok_bind {α β : Type} (a : α) (next : α → Except Fault β) :
    (Except.ok a >>= next) = next a := rfl

theorem demand_eq {p : Prop} [Decidable p] (h : p) (fault : Fault) : demand p fault = .ok () :=
  if_pos h

theorem byteAt_eq {bs : Bytes} {i : Nat} (h : i < bs.length) : byteAt bs i = .ok bs[i] := by
  rw [byteAt, List.getElem?_eq_getElem h]

theorem stretch_eq {bs : Bytes} {i j : Nat} (hi : i ≤ j) (hj : j ≤ bs.length) :
    stretch bs i j = .ok ((bs.take j).drop i) := by
  rw [stretch, demand_eq ⟨hi, hj⟩]
  rfl

/-! ## Runs that end -/

/-- A run ends, with a result that has a property or because its steps are used up. -/
def Ends {α : Type} (P : α → Prop) : Except Fault α → Prop
  | .ok a => P a
  | .error fault => fault = .outOfSteps

namespace Ends

variable {α β : Type} {P : α → Prop} {Q : β → Prop} {run : Except Fault α}

theorem bind {next : α → Except Fault β} (h : Ends P run) (hnext : ∀ a, P a → Ends Q (next a)) :
    Ends Q (run >>= next) := by
  cases run with
  | ok a => exact hnext a h
  | error fault => exact h

private theorem demand {p : Prop} [Decidable p] {fault : Fault} {next : Unit → Except Fault β}
    (h : p) (hnext : Ends Q (next ())) : Ends Q (Linemark.demand p fault >>= next) := by
  rw [demand_eq h]
  exact hnext

end Ends

/-! ## Windows -/

/-- A stretch of a store between a source and those who want its lines. -/
structure Window (σ : Type) where
  /-- Where bytes come from. -/
  source : σ
  /-- The space that bytes are read into. -/
  store : Array UInt8
  /-- The index of the next byte to hand out. -/
  pos : Nat
  /-- The index after the last byte that was read. -/
  stop : Nat
  /-- The input has ended. -/
  ended : Bool
  /-- How many bytes have been handed out. -/
  consumed : Nat

namespace Window

variable {σ : Type}

/-- A window whose store has the given size, or one byte if the size is zero. -/
def ofSize (source : σ) (size : Nat) : Window σ :=
  { source, store := Array.replicate (max size 1) 0, pos := 0, stop := 0, ended := false,
    consumed := 0 }

/-- The indices are in order, in a store of the given size. -/
structure InOrder (size : Nat) (w : Window σ) : Prop where
  /-- What waits is a stretch. -/
  pos_le_stop : w.pos ≤ w.stop
  /-- The stretch lies in the store. -/
  stop_le_size : w.stop ≤ w.store.size
  /-- The store has kept its size. -/
  size_eq : w.store.size = size
  /-- There is room to read into. -/
  size_pos : 1 ≤ w.store.size
  /-- Nothing waits at the end of the input. -/
  used_up : w.ended = true → w.pos = w.stop

instance (size : Nat) (w : Window σ) : Decidable (w.InOrder size) :=
  decidable_of_iff
    (w.pos ≤ w.stop ∧ w.stop ≤ w.store.size ∧ w.store.size = size ∧ 1 ≤ w.store.size ∧
      (w.ended = true → w.pos = w.stop))
    ⟨fun ⟨h, h', h'', hpos, hused⟩ ↦ ⟨h, h', h'', hpos, hused⟩,
      fun ⟨h, h', h'', hpos, hused⟩ ↦ ⟨h, h', h'', hpos, hused⟩⟩

theorem inOrder_ofSize (source : σ) (size : Nat) : (ofSize source size).InOrder (max size 1) where
  pos_le_stop := Nat.le_refl 0
  stop_le_size := Nat.zero_le _
  size_eq := Array.size_replicate
  size_pos := by
    rw [ofSize, Array.size_replicate]
    exact Nat.le_max_right size 1
  used_up _ := rfl

/-! ## Operations -/

section Operations

variable (read : σ → Nat → Delivery × σ) (size : Nat)

/-- Hands out bytes. -/
def consume (w : Window σ) (n : Nat) : Except Fault (Window σ) := do
  demand (w.InOrder size) .disorder
  demand (w.pos + n ≤ w.stop) .overrun
  return { w with pos := w.pos + n, consumed := w.consumed + n }

/-- Reads until something other than an interruption comes, and says whether bytes came. -/
def fetch : Nat → Window σ → Except Fault (Bool × Window σ)
  | 0, _ => .error .outOfSteps
  | steps + 1, w => do
    demand (w.InOrder size ∧ w.pos = w.stop ∧ w.ended = false) .disorder
    match read w.source w.store.size with
    | (.bytes [], source) => return (false, { w with source, ended := true })
    | (.bytes (b :: bs), source) =>
      return (true, { w with source, store := overwrite w.store 0 (b :: bs), pos := 0,
                             stop := bs.length + 1 })
    | (.failed .interrupted, source) => fetch steps { w with source }
    | (.failed _, source) => return (false, { w with source, ended := true })

/-- Reads into the used up store, and says whether there are bytes again. -/
def refill (steps : Nat) (w : Window σ) : Except Fault (Bool × Window σ) := do
  demand (w.InOrder size) .disorder
  demand (w.pos = w.stop) .early
  if w.ended then return (false, w) else w.fetch read size steps

/-- Whether bytes wait. Reads if the store is used up. -/
def ready (steps : Nat) (w : Window σ) : Except Fault (Bool × Window σ) :=
  if w.pos = w.stop then w.refill read size steps else return (true, w)

/-- Whether the next byte is LF. Reads if the store is used up. -/
def nextIsLineFeed (steps : Nat) (w : Window σ) : Except Fault (Bool × Window σ) := do
  demand (w.InOrder size) .disorder
  let (more, w) ← w.ready read size steps
  if more then
    demand (w.pos < w.stop) .bare
    let byte ← byteAt w.store.toList w.pos
    return (byte == lineFeed, w)
  else return (false, w)

/-- The terminator that starts with a byte that was handed out. -/
def terminator (steps : Nat) (w : Window σ) (byte : UInt8) :
    Except Fault (Terminator × Window σ) :=
  if byte == lineFeed then return (.lf, w)
  else do
    let (isLineFeed, w) ← w.nextIsLineFeed read size steps
    if isLineFeed then return (.crlf, ← w.consume size 1) else return (.cr, w)

/-- Adds what waits to a text, up to the end of the line and with its terminator if it is there. -/
def scan (steps : Nat) (w : Window σ) (text : Bytes) :
    Except Fault (Bytes × Option Terminator × Window σ) := do
  let waiting ← stretch w.store.toList w.pos w.stop
  demand (waiting ≠ []) .bare
  match waiting.findIdx? isBreak with
  | some i =>
    let byte ← byteAt waiting i
    let front ← stretch waiting 0 i
    let w ← w.consume size (i + 1)
    let (terminator, w) ← w.terminator read size steps byte
    return (text ++ front, some terminator, w)
  | none =>
    let w ← w.consume size waiting.length
    return (text ++ waiting, none, w)

/-- The line loop, with the text that was gathered. -/
def nextLineFrom : Nat → Window σ → Bytes → Except Fault (Option RawLine × Window σ)
  | 0, _, _ => .error .outOfSteps
  | steps + 1, w, text => do
    demand (w.InOrder size) .disorder
    let (more, w) ← w.ready read size (steps + 1)
    if more then
      let (text, terminator, w) ← w.scan read size (steps + 1) text
      match terminator with
      | some terminator => return (some ⟨text, terminator⟩, w)
      | none => nextLineFrom steps w text
    else return (if text.isEmpty then none else some ⟨text, .eof⟩, w)

/-- The lines that so many calls give, each granted so many steps, and the window after them. -/
def takeLines (steps : Nat) (w : Window σ) : Nat → Except Fault (List RawLine × Window σ)
  | 0 => return ([], w)
  | n + 1 => do
    let (line, w) ← w.nextLineFrom read size steps []
    let (lines, w) ← w.takeLines steps n
    return (line.toList ++ lines, w)

end Operations

/-! ## No fault but a lack of steps -/

section Faultless

variable {read : σ → Nat → Delivery × σ} {size : Nat} {w : Window σ}

/-- Reads hand over no more bytes than there is room for. -/
def FitsRoom (read : σ → Nat → Delivery × σ) : Prop :=
  ∀ source n bs next, read source n = (.bytes bs, next) → bs.length ≤ n

theorem ends_consume {n : Nat} (hw : w.InOrder size) (h : w.pos + n ≤ w.stop) :
    Ends (InOrder size) (w.consume size n) := by
  refine .demand hw (.demand h ⟨h, hw.stop_le_size, hw.size_eq, hw.size_pos, fun hended ↦ ?_⟩)
  have := hw.used_up hended
  simp only
  omega

/-- What is known where bytes are wanted: the indices are in order, and bytes wait if they came. -/
def Ready (size : Nat) (r : Bool × Window σ) : Prop :=
  r.2.InOrder size ∧ (r.1 = true → r.2.pos < r.2.stop)

private theorem ready_of_ended (hw : w.InOrder size) (h : w.pos = w.stop) (source : σ) :
    Ready size (false, { w with source, ended := true }) :=
  ⟨⟨hw.pos_le_stop, hw.stop_le_size, hw.size_eq, hw.size_pos, fun _ ↦ h⟩, nofun⟩

private theorem ends_fetch (hread : FitsRoom read) (hw : w.InOrder size) (h : w.pos = w.stop)
    (hended : w.ended = false) (steps : Nat) : Ends (Ready size) (w.fetch read size steps) := by
  induction steps generalizing w with
  | zero => rfl
  | succ steps ih =>
    refine .demand ⟨hw, h, hended⟩ ?_
    split
    next source hr => exact ready_of_ended hw h source
    next b bs source hr =>
      have hlength : bs.length + 1 ≤ w.store.size := hread _ _ _ _ hr
      refine ⟨⟨Nat.zero_le _, ?_, ?_, ?_, fun hc ↦ ?_⟩, fun _ ↦ Nat.succ_pos _⟩
      · rwa [size_overwrite]
      · rw [size_overwrite, hw.size_eq]
      · rw [size_overwrite]
        exact hw.size_pos
      · exact absurd hc (by simp [hended])
    next source hr =>
      exact ih (w := { w with source })
        ⟨hw.pos_le_stop, hw.stop_le_size, hw.size_eq, hw.size_pos, hw.used_up⟩ h hended
    next kind source _ hr => exact ready_of_ended hw h source

theorem ends_ready (hread : FitsRoom read) (hw : w.InOrder size) (steps : Nat) :
    Ends (Ready size) (w.ready read size steps) := by
  rw [ready]
  split
  next h =>
    refine .demand hw (.demand h ?_)
    split
    next => exact ⟨hw, nofun⟩
    next hended => exact ends_fetch hread hw h (Bool.eq_false_iff.mpr hended) steps
  next h => exact ⟨hw, fun _ ↦ Nat.lt_of_le_of_ne hw.pos_le_stop h⟩

theorem ends_nextIsLineFeed (hread : FitsRoom read) (hw : w.InOrder size) (steps : Nat) :
    Ends (Ready size) (w.nextIsLineFeed read size steps) := by
  refine .demand hw (.bind (ends_ready hread hw steps) ?_)
  rintro ⟨more, next⟩ ⟨hnext, hlt⟩
  cases more with
  | false => exact ⟨hnext, nofun⟩
  | true =>
    have hpos : next.pos < next.stop := hlt rfl
    have hindex : next.pos < next.store.toList.length := Nat.lt_of_lt_of_le hpos hnext.stop_le_size
    refine .demand hpos ?_
    rw [byteAt_eq hindex]
    exact ⟨hnext, fun _ ↦ hpos⟩

private theorem ends_terminator (hread : FitsRoom read) (hw : w.InOrder size) (steps : Nat)
    (byte : UInt8) : Ends (fun r ↦ r.2.InOrder size) (w.terminator read size steps byte) := by
  rw [terminator]
  split
  next => exact hw
  next =>
    refine .bind (ends_nextIsLineFeed hread hw steps) ?_
    rintro ⟨isLineFeed, next⟩ ⟨hnext, hlt⟩
    cases isLineFeed with
    | false => exact hnext
    | true => exact .bind (ends_consume hnext (hlt rfl)) fun _ h ↦ h

theorem ends_scan (hread : FitsRoom read) (hw : w.InOrder size) (hlt : w.pos < w.stop)
    (steps : Nat) (text : Bytes) :
    Ends (fun r ↦ r.2.2.InOrder size) (w.scan read size steps text) := by
  rw [scan, stretch_eq hw.pos_le_stop hw.stop_le_size, ok_bind]
  have hlength : ((w.store.toList.take w.stop).drop w.pos).length = w.stop - w.pos := by
    have := hw.stop_le_size
    simp [this]
  generalize (w.store.toList.take w.stop).drop w.pos = waiting at hlength ⊢
  refine .demand (List.ne_nil_of_length_pos (by omega)) ?_
  split
  next i hi =>
    obtain ⟨hilt, -⟩ := List.findIdx?_eq_some_iff_getElem.mp hi
    rw [byteAt_eq hilt, stretch_eq (Nat.zero_le i) (Nat.le_of_lt hilt), ok_bind, ok_bind]
    refine .bind (ends_consume hw (by omega)) fun next hnext ↦ ?_
    exact .bind (ends_terminator hread hnext steps _) fun _ h ↦ h
  next => exact .bind (ends_consume hw (by omega)) fun _ h ↦ h

theorem ends_nextLineFrom (hread : FitsRoom read) (hw : w.InOrder size) (steps : Nat)
    (text : Bytes) : Ends (fun r ↦ r.2.InOrder size) (w.nextLineFrom read size steps text) := by
  induction steps generalizing w text with
  | zero => rfl
  | succ steps ih =>
    refine .demand hw (.bind (ends_ready hread hw (steps + 1)) ?_)
    rintro ⟨more, next⟩ ⟨hnext, hlt⟩
    cases more with
    | false => exact hnext
    | true =>
      refine .bind (ends_scan hread hnext (hlt rfl) (steps + 1) text) ?_
      rintro ⟨text, terminator, next⟩ hnext
      cases terminator with
      | some terminator => exact hnext
      | none => exact ih hnext text

/-- **No index leaves the store**, whatever the source does and however often it is asked. -/
theorem ends_takeLines (hread : FitsRoom read) (hw : w.InOrder size) (steps n : Nat) :
    Ends (fun r ↦ r.2.InOrder size) (w.takeLines read size steps n) := by
  induction n generalizing w with
  | zero => exact hw
  | succ n ih =>
    refine .bind (ends_nextLineFrom hread hw steps []) fun ⟨_, next⟩ hnext ↦ ?_
    exact .bind (ih hnext) fun _ h ↦ h

/-- A source that claims to have handed over more than there was room for is found out. -/
example :
    (ofSize () 1).takeLines (fun _ n ↦ (.bytes (List.replicate (n + 1) 0x61), ())) 1 3 1
      = .error .outside := by rfl

end Faultless

end Window

end Linemark
