import Linemark.Stream.Sink

/-!
# Writing in parts

It does not matter in how many parts bytes are written to a sink. What is taken is the same
(`Sink.take_append`), and so is whether all of it was taken and what is said if not
(`Sink.writeAll_append`). This holds for every limit, wherever in the parts or between them it is:
once a part was not taken in full there is no room left, and nothing of a later part lands behind
the gap.
-/

namespace Linemark

namespace Sink

variable {s : Sink} {limit : Nat}

theorem eq_of_output_eq {s t : Sink} (h : s.output = t.output) (hlimit : s.limit = t.limit)
    (hrefusal : s.refusal = t.refusal) (hflushes : s.flushes = t.flushes) : s = t := by
  obtain ⟨written, limit, refusal, flushes⟩ := s
  obtain ⟨written', limit', refusal', flushes'⟩ := t
  obtain rfl : written = written' := Array.toList_inj.mp h
  subst hlimit hrefusal hflushes
  rfl

@[simp] theorem limit_take (s : Sink) (bs : Bytes) : (s.take bs).limit = s.limit := rfl

@[simp] theorem refusal_take (s : Sink) (bs : Bytes) : (s.take bs).refusal = s.refusal := rfl

theorem output_take_of_unlimited (h : s.limit = none) (bs : Bytes) :
    (s.take bs).output = s.output ++ bs := by
  rw [output_take, room, h, List.take_length]

theorem output_take_of_limited (h : s.limit = some limit) (bs : Bytes) :
    (s.take bs).output = s.output ++ bs.take (limit - s.output.length) := by
  have hsize : s.written.size = s.output.length := by simp [output]
  rw [output_take, room, h, hsize]
  change s.output ++ bs.take (min bs.length (limit - s.output.length)) = _
  rw [Nat.min_comm, ← List.take_eq_take_min]

@[simp] theorem take_nil (s : Sink) : s.take [] = s := by simp [take]

/-- **Taking bytes in two parts** is taking them at once. -/
theorem take_append (s : Sink) (bs cs : Bytes) : (s.take bs).take cs = s.take (bs ++ cs) := by
  refine eq_of_output_eq ?_ rfl rfl rfl
  cases h : s.limit with
  | none =>
    have h' : (s.take bs).limit = none := h
    rw [output_take_of_unlimited h', output_take_of_unlimited h, output_take_of_unlimited h,
      List.append_assoc]
  | some limit =>
    have h' : (s.take bs).limit = some limit := h
    -- the room behind the first part is what the first part leaves of it
    have hroom : limit - (s.output ++ bs.take (limit - s.output.length)).length
        = limit - s.output.length - bs.length := by
      rw [List.length_append, List.length_take]
      omega
    rw [output_take_of_limited h', output_take_of_limited h, output_take_of_limited h, hroom,
      List.take_append, List.append_assoc]

/-- Nothing lands behind the limit. A sink with a limit that holds the beginning of what another
sink holds without one still does so after both have taken the same bytes. -/
theorem output_take_eq_take {t : Sink} (hs : s.limit = some limit) (ht : t.limit = none)
    (h : s.output = t.output.take limit) (bs : Bytes) :
    (s.take bs).output = (t.take bs).output.take limit := by
  have hroom : limit - (t.output.take limit).length = limit - t.output.length := by
    rw [List.length_take]
    omega
  rw [output_take_of_limited hs, output_take_of_unlimited ht, h, hroom, List.take_append]

/-- There is room for all of some bytes. -/
def Fits (s : Sink) (bs : Bytes) : Prop := s.room bs.length = bs.length

theorem fits_of_unlimited (h : s.limit = none) (bs : Bytes) : s.Fits bs := by
  rw [Fits, room, h]

theorem fits_iff_of_limited (h : s.limit = some limit) (bs : Bytes) :
    s.Fits bs ↔ bs.length ≤ limit - s.output.length := by
  have hsize : s.written.size = s.output.length := by simp [output]
  rw [Fits, room, h, hsize]
  change min bs.length (limit - s.output.length) = bs.length ↔ _
  omega

theorem fits_append_iff (s : Sink) (bs cs : Bytes) :
    s.Fits (bs ++ cs) ↔ s.Fits bs ∧ (s.take bs).Fits cs := by
  cases h : s.limit with
  | none =>
    have h' : (s.take bs).limit = none := h
    simp only [fits_of_unlimited h, fits_of_unlimited h', and_self]
  | some limit =>
    have h' : (s.take bs).limit = some limit := h
    rw [fits_iff_of_limited h, fits_iff_of_limited h, fits_iff_of_limited h',
      output_take_of_limited h, List.length_append, List.length_append, List.length_take]
    omega

private theorem take_append_of_not_fits {bs : Bytes} (h : ¬s.Fits bs) (cs : Bytes) :
    s.take (bs ++ cs) = s.take bs := by
  refine eq_of_output_eq ?_ rfl rfl rfl
  cases hl : s.limit with
  | none => exact absurd (fits_of_unlimited hl bs) h
  | some limit =>
    rw [fits_iff_of_limited hl] at h
    rw [output_take_of_limited hl, output_take_of_limited hl,
      List.take_append_of_le_length (by omega)]

theorem writeAll_of_fits {bs : Bytes} (h : s.Fits bs) : s.writeAll bs = .ok (s.take bs) := if_pos h

theorem writeAll_of_not_fits {bs : Bytes} (h : ¬s.Fits bs) :
    s.writeAll bs = .error ⟨s.reason, s.take bs⟩ :=
  if_neg h

/-- A sink that takes nothing more. -/
def IsFull (s : Sink) : Prop := ∃ limit, s.limit = some limit ∧ limit ≤ s.output.length

theorem isFull_of_not_fits {b : UInt8} (h : ¬s.Fits [b]) : s.IsFull := by
  cases hlimit : s.limit with
  | none => exact absurd (fits_of_unlimited hlimit [b]) h
  | some limit =>
    rw [fits_iff_of_limited hlimit, List.length_singleton] at h
    exact ⟨limit, hlimit, by omega⟩

theorem writeAll_of_isFull (h : s.IsFull) {bs : Bytes} (hbs : bs ≠ []) :
    s.writeAll bs = .error ⟨s.reason, s⟩ := by
  obtain ⟨limit, hlimit, hle⟩ := h
  have hroom : limit - s.output.length = 0 := Nat.sub_eq_zero_of_le hle
  have hfits : ¬s.Fits bs := by
    have hpos := List.length_pos_iff.mpr hbs
    rw [fits_iff_of_limited hlimit, hroom]
    omega
  have htake : s.take bs = s := by
    refine eq_of_output_eq ?_ rfl rfl rfl
    rw [output_take_of_limited hlimit, hroom, List.take_zero, List.append_nil]
  rw [writeAll_of_not_fits hfits, htake]

theorem writeAll_nil (s : Sink) : s.writeAll [] = .ok s := by
  have hfits : s.Fits [] := by
    rw [Fits, room]
    split <;> simp
  rw [writeAll_of_fits hfits, take_nil]

/-- Writing bytes in two parts is writing them at once, the outcome included. -/
theorem writeAll_append (s : Sink) (bs cs : Bytes) :
    (s.writeAll bs).bind (fun t ↦ t.writeAll cs) = s.writeAll (bs ++ cs) := by
  by_cases hbs : s.Fits bs
  · rw [writeAll_of_fits hbs, Except.bind]
    by_cases hcs : (s.take bs).Fits cs
    · rw [writeAll_of_fits hcs, writeAll_of_fits ((s.fits_append_iff bs cs).mpr ⟨hbs, hcs⟩),
        take_append]
    · have hboth : ¬s.Fits (bs ++ cs) := fun h ↦ hcs ((s.fits_append_iff bs cs).mp h).2
      rw [writeAll_of_not_fits hcs, writeAll_of_not_fits hboth, take_append]
      rfl
  · have hboth : ¬s.Fits (bs ++ cs) := fun h ↦ hbs ((s.fits_append_iff bs cs).mp h).1
    rw [writeAll_of_not_fits hbs, writeAll_of_not_fits hboth, take_append_of_not_fits hbs cs]
    rfl

end Sink

/-! ## Writing in portions

A write may take less than it is given. Writing all of some bytes is making writes until nothing is
left: each takes as many bytes as it happens to, and the next is given the others. Where there is no
room, a write is refused, and that ends it; only if the refusal is an interruption the write is made
again, and without room it is interrupted for ever.

`Sink.Writes` says this write by write, and leaves open how much each write takes. Nothing depends
on it: what the writes come to is what `Sink.writeAll` gives at once (`Sink.Writes.writeAll_eq`).
Nor does it matter in which pieces bytes are written that way one after the other
(`Sink.writesEach_iff`). -/

namespace Sink

/-! ### One piece -/

/-- Writing all of some bytes comes to a result, write by write. -/
inductive Writes : Sink → Bytes → Except Refused Sink → Prop
  /-- Nothing is left to be written. -/
  | done {s : Sink} : Writes s [] (.ok s)
  /-- A write takes some bytes, as far as there is room, and the others are written after it. -/
  | taken {s : Sink} {bs : Bytes} {n : Nat} {result : Except Refused Sink} (hpos : 0 < n)
    (hroom : n ≤ s.room bs.length) (hrest : Writes (s.take (bs.take n)) (bs.drop n) result) :
    Writes s bs result
  /-- A write is refused. -/
  | refused {s : Sink} {bs : Bytes} (hne : bs ≠ []) (hroom : s.room bs.length = 0)
    (hkind : s.reason.kind ≠ .interrupted) : Writes s bs (.error ⟨s.reason, s⟩)

variable {s : Sink} {bs : Bytes} {result : Except Refused Sink}

private theorem room_le (s : Sink) (n : Nat) : s.room n ≤ n := by
  rw [room]
  split
  · exact Nat.le_refl n
  · exact Nat.min_le_left _ _

private theorem fits_take {n : Nat} (h : n ≤ s.room bs.length) : s.Fits (bs.take n) := by
  have hle : n ≤ bs.length := Nat.le_trans h (s.room_le bs.length)
  rw [Fits, List.length_take, Nat.min_eq_left hle]
  rw [room] at h ⊢
  split at h
  · rfl
  · omega

private theorem room_take_of_not_fits (h : ¬s.Fits bs) (n : Nat) : (s.take bs).room n = 0 := by
  cases hlimit : s.limit with
  | none => exact absurd (fits_of_unlimited hlimit bs) h
  | some limit =>
    have hlimit' : (s.take bs).limit = some limit := hlimit
    have houtput := congrArg List.length (output_take_of_limited hlimit bs)
    rw [fits_iff_of_limited hlimit] at h
    rw [List.length_append, List.length_take, output, Array.length_toList] at houtput
    rw [room, hlimit', houtput]
    change min n _ = 0
    omega

private theorem take_take_room (s : Sink) (bs : Bytes) :
    s.take (bs.take (s.room bs.length)) = s.take bs := by
  have hfits : s.Fits (bs.take (s.room bs.length)) := fits_take (Nat.le_refl _)
  refine eq_of_output_eq ?_ rfl rfl rfl
  rw [output_take, output_take, hfits, List.take_length]

private theorem take_of_room_eq_zero (h : s.room bs.length = 0) : s.take bs = s := by
  rw [← take_take_room, h, List.take_zero, take_nil]

/-- **What writes come to** does not depend on how much each of them takes. -/
theorem Writes.writeAll_eq (h : s.Writes bs result) : s.writeAll bs = result := by
  induction h with
  | done => exact writeAll_nil _
  | @taken s bs n result hpos hroom hrest ih =>
    rw [← List.take_append_drop n bs, ← writeAll_append, writeAll_of_fits (fits_take hroom)]
    exact ih
  | @refused s bs hne hroom hkind =>
    have hfits : ¬s.Fits bs := by
      rw [Fits, hroom]
      exact fun h ↦ hne (List.length_eq_zero_iff.mp h.symm)
    rw [writeAll_of_not_fits hfits, take_of_room_eq_zero hroom]

/-- Writes come to an end: one write takes what there is room for, and if anything is left the
next is refused. -/
theorem writes_writeAll (hkind : s.reason.kind ≠ .interrupted) (bs : Bytes) :
    s.Writes bs (s.writeAll bs) := by
  by_cases hne : bs = []
  · rw [hne, writeAll_nil]
    exact .done
  by_cases hfits : s.Fits bs
  · rw [writeAll_of_fits hfits]
    refine .taken (List.length_pos_iff.mpr hne) (Nat.le_of_eq hfits.symm) ?_
    rw [List.take_length, List.drop_length]
    exact .done
  · rw [writeAll_of_not_fits hfits]
    rcases Nat.eq_zero_or_pos (s.room bs.length) with hzero | hpos
    · rw [take_of_room_eq_zero hzero]
      exact .refused hne hzero hkind
    · refine .taken hpos (Nat.le_refl _) ?_
      have hleft : bs.drop (s.room bs.length) ≠ [] := by
        rw [Ne, List.drop_eq_nil_iff, Nat.not_le]
        exact Nat.lt_of_le_of_ne (s.room_le bs.length) hfits
      rw [take_take_room]
      exact .refused hleft (room_take_of_not_fits hfits _) hkind

theorem Writes.of_error {refused : Refused} (h : s.Writes bs (.error refused)) :
    refused.failure = s.reason ∧ s.reason.kind ≠ .interrupted := by
  generalize hresult : Except.error refused = result at h
  induction h with
  | done => cases hresult
  | taken hpos hroom hrest ih => exact ih hresult
  | refused hne hroom hkind =>
    obtain rfl := Except.error.inj hresult
    exact ⟨rfl, hkind⟩

/-! ### One piece after the other -/

/-- Writing pieces one after the other, until one of them is not taken in full, comes to a result,
write by write. -/
inductive WritesEach : Sink → List Bytes → Except Refused Sink → Prop
  /-- No piece is left. -/
  | done {s : Sink} : WritesEach s [] (.ok s)
  /-- A piece was taken in full, and the next ones are written after it. -/
  | taken {s t : Sink} {piece : Bytes} {pieces : List Bytes} {result : Except Refused Sink}
    (hpiece : s.Writes piece (.ok t)) (hrest : WritesEach t pieces result) :
    WritesEach s (piece :: pieces) result
  /-- A piece was not taken in full. -/
  | refused {s : Sink} {piece : Bytes} {pieces : List Bytes} {refused : Refused}
    (hpiece : s.Writes piece (.error refused)) :
    WritesEach s (piece :: pieces) (.error refused)

private theorem eq_take_of_writeAll_eq_ok {t : Sink} (h : s.writeAll bs = .ok t) :
    t = s.take bs := by
  by_cases hfits : s.Fits bs
  · rw [writeAll_of_fits hfits] at h
    exact (Except.ok.inj h).symm
  · rw [writeAll_of_not_fits hfits] at h
    cases h

/-- Writing in pieces and portions comes to what writing at once comes to. -/
theorem writesEach_iff (hkind : s.reason.kind ≠ .interrupted) {pieces : List Bytes} :
    s.WritesEach pieces result ↔ s.writeAll pieces.flatten = result := by
  induction pieces generalizing s result with
  | nil =>
    rw [List.flatten_nil, writeAll_nil]
    constructor
    · rintro ⟨⟩
      rfl
    · rintro rfl
      exact .done
  | cons piece pieces ih =>
    rw [List.flatten_cons, ← writeAll_append]
    constructor
    · intro h
      cases h with
      | @taken _ t _ _ _ hpiece hrest =>
        obtain rfl := eq_take_of_writeAll_eq_ok hpiece.writeAll_eq
        rw [hpiece.writeAll_eq]
        exact (ih (s := s.take piece) hkind).mp hrest
      | refused hpiece =>
        rw [hpiece.writeAll_eq]
        rfl
    · rintro rfl
      have hpiece := writes_writeAll hkind piece
      by_cases hfits : s.Fits piece
      · rw [writeAll_of_fits hfits] at hpiece ⊢
        exact .taken hpiece ((ih (s := s.take piece) hkind).mpr rfl)
      · rw [writeAll_of_not_fits hfits] at hpiece ⊢
        exact .refused hpiece

end Sink

end Linemark
