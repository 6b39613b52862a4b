import Linemark.Stream.Source

/-!
# What a source hands over

A source is fetched from until it ends. Two accounts are kept of a fetch, and they differ only
where the input ends: `Source.delivered` counts what a reader can still get to, which is nothing
once a fetch gives nothing, while `Source.remaining` counts everything in the script, of which
nothing is ever lost.
-/

namespace Linemark

namespace Item

theorem content_answer_bytes {size : Nat} {script rest : List Item} {bs : Bytes}
    (h : answer size script = (.bytes bs, rest)) :
    script.flatMap content = bs ++ rest.flatMap content := by
  fun_induction answer size script with
  | case1 =>
    obtain ⟨rfl, rfl⟩ : [] = bs ∧ [] = rest := by simpa using h
    rfl
  | case2 script ih => simpa [content] using ih h
  | case3 b cs script =>
    obtain ⟨rfl, rfl⟩ :
        (b :: cs).take size = bs ∧ .data ((b :: cs).drop size) :: script = rest := by simpa using h
    rw [List.flatMap_cons, List.flatMap_cons, content, content, ← List.append_assoc,
      List.take_append_drop]
  | case4 => simp at h
  | case5 script =>
    obtain ⟨rfl, rfl⟩ : [] = bs ∧ script = rest := by simpa using h
    rfl

theorem content_answer_failed {size : Nat} {script rest : List Item} {kind : FailureKind}
    (h : answer size script = (.failed kind, rest)) :
    script.flatMap content = rest.flatMap content := by
  fun_induction answer size script with
  | case1 => simp at h
  | case2 script ih => simpa [content] using ih h
  | case3 => simp at h
  | case4 k script =>
    obtain ⟨-, rfl⟩ : k = kind ∧ script = rest := by simpa using h
    rfl
  | case5 => simp at h

private theorem delivered_answer_bytes {size : Nat} {script rest : List Item} {bs : Bytes}
    (hsize : 0 < size) (h : answer size script = (.bytes bs, rest)) :
    delivered script = if bs = [] then [] else bs ++ delivered rest := by
  fun_induction answer size script with
  | case1 =>
    obtain ⟨rfl, rfl⟩ : [] = bs ∧ [] = rest := by simpa using h
    rfl
  | case2 script ih => simpa [delivered] using ih h
  | case3 b cs script =>
    obtain ⟨rfl, rfl⟩ :
        (b :: cs).take size = bs ∧ .data ((b :: cs).drop size) :: script = rest := by simpa using h
    have hne : (b :: cs).take size ≠ [] := by simp; omega
    rw [if_neg hne, delivered, delivered, ← List.append_assoc, List.take_append_drop]
  | case4 => simp at h
  | case5 script =>
    obtain ⟨rfl, rfl⟩ : [] = bs ∧ script = rest := by simpa using h
    rfl

private theorem delivered_answer_failed {size : Nat} {script rest : List Item} {kind : FailureKind}
    (h : answer size script = (.failed kind, rest)) :
    delivered script = if kind = .interrupted then delivered rest else [] := by
  fun_induction answer size script with
  | case1 => simp at h
  | case2 script ih => simpa [delivered] using ih h
  | case3 => simp at h
  | case4 k script =>
    obtain ⟨rfl, rfl⟩ : k = kind ∧ script = rest := by simpa using h
    rfl
  | case5 => simp at h

theorem length_answer_le {size : Nat} {script rest : List Item} {bs : Bytes}
    (h : answer size script = (.bytes bs, rest)) : bs.length ≤ size := by
  fun_induction answer size script with
  | case1 =>
    obtain ⟨rfl, -⟩ : [] = bs ∧ [] = rest := by simpa using h
    simp
  | case2 script ih => exact ih h
  | case3 b cs script =>
    obtain ⟨rfl, -⟩ :
        (b :: cs).take size = bs ∧ .data ((b :: cs).drop size) :: script = rest := by simpa using h
    exact List.length_take_le size (b :: cs)
  | case4 => simp at h
  | case5 script =>
    obtain ⟨rfl, -⟩ : [] = bs ∧ script = rest := by simpa using h
    simp

end Item

namespace Source

@[simp] theorem delivered_ofBytes (bs : Bytes) : (ofBytes bs).delivered = bs := by
  simp [ofBytes, delivered, Item.delivered]

theorem limit_pos (s : Source) {size : Nat} (h : 0 < size) : 0 < s.limit size := by
  rw [limit]
  split
  next => exact h
  next n _ => exact Nat.lt_min.mpr ⟨n.2, h⟩

theorem limit_le (s : Source) (size : Nat) : s.limit size ≤ size := by
  rw [limit]
  split
  next => exact Nat.le_refl size
  next n _ => exact Nat.min_le_right n size

theorem read_eq_iff {s next : Source} {size : Nat} {delivery : Delivery} :
    s.read size = (delivery, next) ↔
      Item.answer (s.limit size) s.script = (delivery, next.script) ∧ next.step = s.step ∧
        next.reads = s.reads + 1 := by
  obtain ⟨script, step, reads⟩ := next
  rw [read]
  generalize Item.answer (s.limit size) s.script = answered
  obtain ⟨delivery', script'⟩ := answered
  simp only [Prod.mk.injEq, Source.mk.injEq]
  constructor
  · rintro ⟨rfl, rfl, rfl, rfl⟩
    exact ⟨⟨rfl, rfl⟩, rfl, rfl⟩
  · rintro ⟨⟨rfl, rfl⟩, rfl, rfl⟩
    exact ⟨rfl, rfl, rfl, rfl⟩

/-- Fetching loses nothing: what is not handed over is still in the script. -/
theorem remaining_fetch (s : Source) (size : Nat) :
    s.remaining = (s.fetch size).1 ++ (s.fetch size).2.remaining := by
  fun_induction fetch s size with
  | case1 s bs next h => exact Item.content_answer_bytes (read_eq_iff.mp h).1
  | case2 s next h ih => rw [← ih]; exact Item.content_answer_failed (read_eq_iff.mp h).1
  | case3 s kind next _ h => exact Item.content_answer_failed (read_eq_iff.mp h).1

/-- **A fetch gives nothing exactly at the end** of what is delivered; otherwise it gives the
beginning of it. -/
theorem delivered_fetch (s : Source) {size : Nat} (hsize : 0 < size) :
    s.delivered = if (s.fetch size).1 = [] then [] else
      (s.fetch size).1 ++ (s.fetch size).2.delivered := by
  fun_induction fetch s size with
  | case1 s bs next h =>
    exact Item.delivered_answer_bytes (s.limit_pos hsize) (read_eq_iff.mp h).1
  | case2 s next h ih =>
    rw [← ih]
    exact Item.delivered_answer_failed (read_eq_iff.mp h).1
  | case3 s kind next hkind h =>
    have hd := Item.delivered_answer_failed (read_eq_iff.mp h).1
    rw [if_neg hkind] at hd
    exact hd

theorem length_fetch_le (s : Source) (size : Nat) : (s.fetch size).1.length ≤ size := by
  fun_induction fetch s size with
  | case1 s bs next h =>
    exact Nat.le_trans (Item.length_answer_le (read_eq_iff.mp h).1) (s.limit_le size)
  | case2 s next h ih => exact ih
  | case3 s kind next _ h => exact Nat.zero_le size

end Source

end Linemark
