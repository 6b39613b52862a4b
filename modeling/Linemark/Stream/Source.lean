import Linemark.Text.Bytes
import Linemark.Stream.Failure

/-!
# Byte sources

A source answers reads: each read hands over some bytes, hands over none (which ends the input),
or fails. What a source will answer is written down in advance as a *script* of items, so that a
source is a value, reading is a function on values, and a statement about every way the input may
arrive is a statement about every script.

The bytes of one data item may be handed over in many reads: a read is limited by the space the
reader offers and, if the source has a step, by the step. Two byte strings are read off a script
without reading from it. `Source.delivered` is the input as a reader gets to see it, which ends at
the first item that ends the input; `Source.remaining` is everything the script still holds.
-/

namespace Linemark

/-- What a source answers a read with. -/
inductive Delivery
  /-- Bytes; none at all is the end of the input. -/
  | bytes (bs : Bytes)
  /-- A failure of the given kind. -/
  | failed (kind : FailureKind)
  deriving DecidableEq, Repr

/-- One entry of a script. -/
inductive Item
  /-- Bytes to be handed over, in as many reads as it takes. -/
  | data (bs : Bytes)
  /-- One read that fails. -/
  | failure (kind : FailureKind)
  /-- One read that hands over nothing. -/
  | nothing
  deriving DecidableEq, Repr

/-- The most bytes that one read hands over. -/
abbrev Step := { n : Nat // 0 < n }

/-- A scripted byte source. -/
structure Source where
  /-- What is left to be answered. -/
  script : List Item
  /-- The most bytes one read hands over, if there is a limit. -/
  step : Option Step := none
  /-- How many reads have been answered. -/
  reads : Nat := 0
  deriving DecidableEq, Repr

/-! ## Scripts -/

namespace Item

/-- The bytes that an item holds. -/
def content : Item → Bytes
  | .data bs => bs
  | .failure _ => []
  | .nothing => []

/-- The bytes of a script up to the first item that ends the input. An interrupted read does not
end it: the read is made again. -/
def delivered : List Item → Bytes
  | [] => []
  | .data bs :: rest => bs ++ delivered rest
  | .failure kind :: rest => if kind = .interrupted then delivered rest else []
  | .nothing :: _ => []

/-- Answers one read into space for `size` bytes, with the script that is left. Empty data is
passed over. -/
def answer (size : Nat) : List Item → Delivery × List Item
  | [] => (.bytes [], [])
  | .data [] :: rest => answer size rest
  | .data (b :: bs) :: rest =>
    (.bytes ((b :: bs).take size), .data ((b :: bs).drop size) :: rest)
  | .failure kind :: rest => (.failed kind, rest)
  | .nothing :: rest => (.bytes [], rest)

/-- What an item adds to the work of reading a script to its end: its bytes, and one. -/
def weight (item : Item) : Nat := item.content.length + 1

/-- The weight of a whole script. -/
def totalWeight : List Item → Nat
  | [] => 0
  | item :: script => item.weight + totalWeight script

@[simp] theorem totalWeight_nil : totalWeight [] = 0 := rfl

@[simp] theorem totalWeight_cons (item : Item) (script : List Item) :
    totalWeight (item :: script) = item.content.length + 1 + totalWeight script := rfl

private theorem length_add_totalWeight_answer {size : Nat} {script rest : List Item} {bs : Bytes}
    (h : answer size script = (.bytes bs, rest)) :
    bs.length + totalWeight rest ≤ totalWeight script := by
  fun_induction answer size script with
  | case1 =>
    obtain ⟨rfl, rfl⟩ : [] = bs ∧ [] = rest := by simpa using h
    simp
  | case2 script ih => have := ih h; simp; omega
  | case3 b cs script =>
    obtain ⟨rfl, rfl⟩ :
        (b :: cs).take size = bs ∧ .data ((b :: cs).drop size) :: script = rest := by simpa using h
    simp only [totalWeight_cons, content, List.length_take, List.length_drop]
    omega
  | case4 => simp at h
  | case5 script =>
    obtain ⟨rfl, rfl⟩ : [] = bs ∧ script = rest := by simpa using h
    simp

private theorem totalWeight_answer_failed {size : Nat} {script rest : List Item}
    {kind : FailureKind}
    (h : answer size script = (.failed kind, rest)) : totalWeight rest < totalWeight script := by
  fun_induction answer size script with
  | case1 => simp at h
  | case2 script ih => have := ih h; simp; omega
  | case3 => simp at h
  | case4 k script =>
    obtain ⟨rfl, rfl⟩ : k = kind ∧ script = rest := by simpa using h
    simp
  | case5 => simp at h

end Item

/-! ## Reading -/

namespace Source

/-- A source that holds one byte string. -/
def ofBytes (bs : Bytes) : Source := { script := [.data bs] }

/-- The input as a reader gets to see it. -/
def delivered (s : Source) : Bytes := Item.delivered s.script

/-- All bytes that are still in the script, whether or not a reader would get to them. -/
def remaining (s : Source) : Bytes := s.script.flatMap Item.content

/-- The most bytes that a read into space for `size` bytes hands over. -/
def limit (s : Source) (size : Nat) : Nat :=
  match s.step with
  | none => size
  | some n => min n size

/-- One read into space for `size` bytes. -/
def read (s : Source) (size : Nat) : Delivery × Source :=
  let (delivery, script) := Item.answer (s.limit size) s.script
  (delivery, { s with script, reads := s.reads + 1 })

/-- An upper bound for the reads and bytes a source has left. -/
def weight (s : Source) : Nat := Item.totalWeight s.script

private theorem length_add_weight_read {s next : Source} {size : Nat} {bs : Bytes}
    (h : s.read size = (.bytes bs, next)) : bs.length + next.weight ≤ s.weight := by
  simp only [read, Prod.mk.injEq] at h
  obtain ⟨hd, rfl⟩ := h
  exact Item.length_add_totalWeight_answer (Prod.ext hd rfl)

theorem weight_read_failed {s next : Source} {size : Nat} {kind : FailureKind}
    (h : s.read size = (.failed kind, next)) : next.weight < s.weight := by
  simp only [read, Prod.mk.injEq] at h
  obtain ⟨hd, rfl⟩ := h
  exact Item.totalWeight_answer_failed (Prod.ext hd rfl)

/-- Reads until something other than an interruption comes, and gives the bytes of that read. An
end of the input and a failure both give none: a source that failed is a source that ended. -/
def fetch (s : Source) (size : Nat) : Bytes × Source :=
  match _h : s.read size with
  | (.bytes bs, next) => (bs, next)
  | (.failed .interrupted, next) => next.fetch size
  | (.failed _, next) => ([], next)
termination_by s.weight
decreasing_by exact weight_read_failed _h

theorem length_add_weight_fetch {s next : Source} {size : Nat} {bs : Bytes}
    (h : s.fetch size = (bs, next)) : bs.length + next.weight ≤ s.weight := by
  fun_induction fetch s size with
  | case1 s bs' next' hr =>
    obtain ⟨rfl, rfl⟩ : bs' = bs ∧ next' = next := by simpa using h
    exact length_add_weight_read hr
  | case2 s next' hr ih =>
    have := ih h
    have := weight_read_failed hr
    omega
  | case3 s kind next' _ hr =>
    obtain ⟨rfl, rfl⟩ : [] = bs ∧ next' = next := by simpa using h
    have := weight_read_failed hr
    simp; omega

end Source

end Linemark
