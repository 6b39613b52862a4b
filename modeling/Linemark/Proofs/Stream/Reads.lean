import Linemark.Proofs.Stream.Delivery
import Mathlib.Algebra.GroupWithZero.Nat
import Mathlib.Logic.Function.Iterate

/-!
# Reads of a source

A source answers one read after another, and what it answers is settled by its script. So a reader
can be followed by the number of its reads alone: `Source.afterReads` is the source that so many
reads leave, `Source.answers` is what they were answered with, in order.

A reader that behaves well makes no read after one that ended the input. `StopsAtEnd` says this of
the answers that it got, and of whether it holds the input to be at its end before them and after
them; two such stretches of answers make one. How many reads such a reader makes in all is then
settled as well, since it goes on until one of them ends the input: `Source.readsToEnd` counts them
item by item, and `StopsAtEnd.eq_readsToEnd` says that the count is right.
-/

namespace Linemark

/-! ## Answers -/

namespace Delivery

/-- The bytes that are handed over. -/
def content : Delivery → Bytes
  | .bytes bs => bs
  | .failed _ => []

/-- The read ended the input: it handed over nothing, and was not just interrupted. -/
def endsInput : Delivery → Bool
  | .bytes bs => bs.isEmpty
  | .failed kind => decide (kind ≠ .interrupted)

theorem endsInput_eq {d : Delivery} (h : d ≠ .failed .interrupted) :
    d.endsInput = d.content.isEmpty := by
  cases d with
  | bytes bs => rfl
  | failed kind =>
    have hkind : kind ≠ .interrupted := fun hk ↦ h (congrArg Delivery.failed hk)
    simpa [endsInput, content] using hkind

end Delivery

/-- Reads are answered with `ds`, and none of them is made at the end of the input. The flags say
whether the input has ended before the reads and after them. -/
inductive StopsAtEnd : Bool → List Delivery → Bool → Prop
  /-- No read is made. -/
  | nil (ended : Bool) : StopsAtEnd ended [] ended
  /-- A read is made, since the input has not ended. -/
  | cons {d : Delivery} {ds : List Delivery} {ended : Bool}
    (h : StopsAtEnd d.endsInput ds ended) : StopsAtEnd false (d :: ds) ended

namespace StopsAtEnd

variable {ds es : List Delivery} {a b c : Bool}

theorem append (h : StopsAtEnd a ds b) (h' : StopsAtEnd b es c) : StopsAtEnd a (ds ++ es) c := by
  induction h with
  | nil => exact h'
  | cons _ ih => exact .cons (ih h')

/-- At the end no read is made. -/
theorem eq_nil (h : StopsAtEnd true ds b) : ds = [] ∧ b = true := by
  cases h
  exact ⟨rfl, rfl⟩

private theorem eq_nil_of_endsInput {d : Delivery} (h : StopsAtEnd a (ds ++ d :: es) b)
    (hd : d.endsInput = true) : es = [] ∧ b = true := by
  induction ds generalizing a with
  | nil =>
    cases h with
    | cons h => exact eq_nil (hd ▸ h)
  | cons e ds ih =>
    cases h with
    | cons h => exact ih h

theorem replicate_interrupted (n : Nat) (d : Delivery) :
    StopsAtEnd false (List.replicate n (.failed .interrupted) ++ [d]) d.endsInput := by
  induction n with
  | zero => exact .cons (.nil _)
  | succ n ih => exact .cons ih

end StopsAtEnd

/-! ## Counting reads -/

namespace Item

/-- The input ends at this item. -/
def endsInput : Item → Bool
  | .data _ => false
  | .failure kind => decide (kind ≠ .interrupted)
  | .nothing => true

/-- How many reads into space for `size` bytes it takes to read `n` bytes: `n` divided by `size`,
rounded up. -/
def stretches (size n : Nat) : Nat := (n + size - 1) / size

/-- How many reads into space for `size` bytes come to the end of a script. Up to the item that ends
the input each data is read in stretches of that size, and each interruption takes a read. One more
read finds the end. -/
def readsToEnd (size : Nat) (script : List Item) : Nat :=
  let before := script.takeWhile fun item ↦ !item.endsInput
  (before.map fun item ↦ stretches size item.content.length).sum +
    before.count (.failure .interrupted) + 1

section

variable {size : Nat}

private theorem stretches_zero (hsize : 0 < size) : stretches size 0 = 0 := by
  rw [stretches, Nat.zero_add]
  exact Nat.div_eq_of_lt (Nat.sub_lt hsize Nat.one_pos)

/-- One read takes as much as there is room for, or all that is left. -/
theorem stretches_eq_succ (hsize : 0 < size) {n : Nat} (hn : 0 < n) :
    stretches size n = stretches size (n - size) + 1 := by
  rw [stretches, stretches, ← Nat.add_div_right _ hsize]
  by_cases hle : n ≤ size
  · -- the last stretch, which need not be a full one
    have hlast : (n - size + size - 1 + size) / size = 1 :=
      Nat.div_eq_of_lt_le (by omega) (by omega)
    rw [hlast]
    exact Nat.div_eq_of_lt_le (by omega) (by omega)
  · congr 1
    omega

private theorem readsToEnd_cons_of_endsInput {item : Item} (h : item.endsInput = true)
    (script : List Item) : readsToEnd size (item :: script) = 1 := by
  simp [readsToEnd, h]

private theorem readsToEnd_data_cons (bs : Bytes) (script : List Item) :
    readsToEnd size (.data bs :: script) = stretches size bs.length + readsToEnd size script := by
  simp [readsToEnd, endsInput, content]
  omega

private theorem readsToEnd_interrupted_cons (hsize : 0 < size) (script : List Item) :
    readsToEnd size (.failure .interrupted :: script) = readsToEnd size script + 1 := by
  simp [readsToEnd, endsInput, content, stretches_zero hsize, Nat.add_assoc]

/-- One read less: a read ends the input, or the reads to the end are one less behind it. -/
theorem readsToEnd_eq (hsize : 0 < size) {script rest : List Item} {d : Delivery}
    (h : answer size script = (d, rest)) :
    readsToEnd size script = if d.endsInput then 1 else readsToEnd size rest + 1 := by
  fun_induction answer size script with
  | case1 =>
    obtain ⟨rfl, rfl⟩ : .bytes [] = d ∧ [] = rest := by simpa using h
    rfl
  | case2 script ih =>
    rw [readsToEnd_data_cons, ih h, List.length_nil, stretches_zero hsize, Nat.zero_add]
  | case3 b bs script =>
    obtain ⟨rfl, rfl⟩ : .bytes ((b :: bs).take size) = d ∧
        .data ((b :: bs).drop size) :: script = rest := by simpa using h
    have hmore : (Delivery.bytes ((b :: bs).take size)).endsInput = false := by
      simp [Delivery.endsInput]
      omega
    have hpos : 0 < (b :: bs).length := List.length_pos_iff.mpr (List.cons_ne_nil b bs)
    rw [hmore, readsToEnd_data_cons, readsToEnd_data_cons, stretches_eq_succ hsize hpos,
      List.length_drop, if_neg Bool.false_ne_true]
    omega
  | case4 kind script =>
    obtain ⟨rfl, rfl⟩ : .failed kind = d ∧ script = rest := by simpa using h
    by_cases hkind : kind = .interrupted
    · subst hkind
      rw [readsToEnd_interrupted_cons hsize]
      rfl
    · have hends : (Delivery.failed kind).endsInput = true := decide_eq_true hkind
      have hitem : (Item.failure kind).endsInput = true := decide_eq_true hkind
      rw [hends, if_pos rfl, readsToEnd_cons_of_endsInput hitem]
  | case5 script =>
    obtain ⟨rfl, rfl⟩ : .bytes [] = d ∧ script = rest := by simpa using h
    exact readsToEnd_cons_of_endsInput rfl script

example : readsToEnd 2 [.data [1, 2, 3], .failure .interrupted, .nothing, .data [4]] = 4 := by
  decide

end

end Item

namespace Source

/-- The source after so many reads into space for `size` bytes. -/
def afterReads (s : Source) (size n : Nat) : Source := (fun s ↦ (s.read size).2)^[n] s

/-- What the read after `n` others is answered with. -/
def answer (s : Source) (size n : Nat) : Delivery := ((s.afterReads size n).read size).1

/-- What the first reads are answered with. -/
def answers (s : Source) (size n : Nat) : List Delivery := (List.range n).map (s.answer size)

/-- The bytes that the first reads hand over. -/
def obtained (s : Source) (size n : Nat) : Bytes :=
  (s.answers size n).flatMap Delivery.content

/-- How many reads into space for `size` bytes come to the end of the input. -/
def readsToEnd (s : Source) (size : Nat) : Nat := Item.readsToEnd (s.limit size) s.script

variable (s : Source) (size : Nat)

private theorem afterReads_succ (n : Nat) :
    s.afterReads size (n + 1) = (s.read size).2.afterReads size n := rfl

theorem afterReads_add (m n : Nat) :
    s.afterReads size (m + n) = (s.afterReads size m).afterReads size n := by
  rw [Nat.add_comm]
  exact Function.iterate_add_apply _ n m s

theorem reads_afterReads (n : Nat) : (s.afterReads size n).reads = s.reads + n := by
  induction n generalizing s with
  | zero => rfl
  | succ n ih =>
    rw [afterReads_succ, ih]
    change s.reads + 1 + n = s.reads + (n + 1)
    omega

private theorem answer_succ (n : Nat) : s.answer size (n + 1) = (s.read size).2.answer size n := rfl

@[simp] theorem length_answers (n : Nat) : (s.answers size n).length = n := by
  simp [answers]

private theorem answers_succ (n : Nat) :
    s.answers size (n + 1) = (s.read size).1 :: (s.read size).2.answers size n := by
  rw [answers, List.range_succ_eq_map, List.map_cons, List.map_map]
  rfl

theorem answers_add (m n : Nat) :
    s.answers size (m + n) = s.answers size m ++ (s.afterReads size m).answers size n := by
  rw [answers, List.range_add, List.map_append, List.map_map, answers, answers]
  congr 2
  funext k
  simp only [Function.comp_apply, answer, afterReads_add]

theorem obtained_add (m n : Nat) :
    s.obtained size (m + n) = s.obtained size m ++ (s.afterReads size m).obtained size n := by
  rw [obtained, answers_add, List.flatMap_append]
  rfl

private theorem remaining_read :
    s.remaining = (s.read size).1.content ++ (s.read size).2.remaining := by
  cases hd : (s.read size).1 with
  | bytes bs => exact Item.content_answer_bytes (read_eq_iff.mp (Prod.ext hd rfl)).1
  | failed kind => exact Item.content_answer_failed (read_eq_iff.mp (Prod.ext hd rfl)).1

/-- No read loses anything. -/
theorem remaining_eq_obtained_append (n : Nat) :
    s.remaining = s.obtained size n ++ (s.afterReads size n).remaining := by
  induction n generalizing s with
  | zero => rfl
  | succ n ih =>
    have hsucc : s.obtained size (n + 1)
        = (s.read size).1.content ++ (s.read size).2.obtained size n := by
      rw [obtained, answers_succ, List.flatMap_cons]
      rfl
    rw [remaining_read s size, ih, hsucc, List.append_assoc]
    rfl

/-- Fetching is reading until something other than an interruption comes. -/
theorem exists_fetch_eq :
    ∃ n d, s.fetch size = (d.content, s.afterReads size (n + 1)) ∧
      s.answers size n = List.replicate n (.failed .interrupted) ∧ s.answer size n = d ∧
      d ≠ .failed .interrupted := by
  fun_induction fetch s size with
  | case1 s bs next h =>
    refine ⟨0, .bytes bs, ?_, rfl, congrArg Prod.fst h, by simp⟩
    rw [afterReads_succ, h]
    rfl
  | case2 s next h ih =>
    obtain ⟨n, d, hfetch, hanswers, hanswer, hd⟩ := ih
    refine ⟨n + 1, d, ?_, ?_, ?_, hd⟩
    · rw [hfetch, afterReads_succ s, h]
    · rw [answers_succ, h, hanswers]
      rfl
    · rw [answer_succ, h, hanswer]
  | case3 s kind next hkind h =>
    refine ⟨0, .failed kind, ?_, rfl, congrArg Prod.fst h, by simpa using hkind⟩
    rw [afterReads_succ, h]
    rfl

end Source

namespace StopsAtEnd

variable {s : Source} {size : Nat}

/-- **How many reads it takes**: a reader that stops at the end, and has come to it, has made as
many reads as there are to the end. -/
theorem eq_readsToEnd (hsize : 0 < size) {n : Nat}
    (h : StopsAtEnd false (s.answers size n) true) : n = s.readsToEnd size := by
  induction n generalizing s with
  | zero => cases h
  | succ n ih =>
    rw [Source.answers_succ] at h
    -- a read leaves the limit as it is
    have hstep : s.readsToEnd size
        = if (s.read size).1.endsInput then 1 else (s.read size).2.readsToEnd size + 1 :=
      Item.readsToEnd_eq (s.limit_pos hsize) rfl
    rw [hstep]
    cases h with
    | cons h =>
      by_cases hends : (s.read size).1.endsInput = true
      · rw [hends] at h
        have hnone := congrArg List.length h.eq_nil.1
        rw [Source.length_answers, List.length_nil] at hnone
        rw [if_pos hends, hnone]
      · rw [Bool.eq_false_iff.mpr hends] at h
        rw [if_neg hends, ← ih h]

/-- A read that ended the input was the last one. -/
theorem eq_succ_of_endsInput {k n : Nat} {ended : Bool}
    (h : StopsAtEnd false (s.answers size n) ended) (hk : k < n)
    (hends : (s.answer size k).endsInput = true) : n = k + 1 ∧ ended = true := by
  obtain ⟨rest, rfl⟩ := Nat.exists_eq_add_of_lt hk
  have hsplit : s.answers size (k + rest + 1) = s.answers size k ++ s.answer size k ::
      ((s.afterReads size k).read size).2.answers size rest := by
    rw [Nat.add_assoc, Source.answers_add, Source.answers_succ]
    rfl
  rw [hsplit] at h
  obtain ⟨hnil, hended⟩ := eq_nil_of_endsInput h hends
  have hrest := congrArg List.length hnil
  rw [Source.length_answers, List.length_nil] at hrest
  exact ⟨by omega, hended⟩

end StopsAtEnd

end Linemark
