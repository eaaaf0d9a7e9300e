import LoxLexer.Position.Span

/-!
# Spans as intervals

A span between two byte offsets is the interval between them, as far as 32 bits reach
(`OffsetsClipped.accepted`). There is no such span if the offsets are in the wrong order once they
are clipped. Two offsets beyond 32 bits are in no order then, so they always have one, and it is
empty.

A span of any start and any length need not have an end. A question about a position fails for that
reason only if the end is looked at, which is not so for a position in front of the start
(`LengthChecked`).
-/

set_option autoImplicit false

namespace LoxLexer

namespace Span

/-! ## Definitions -/

/-- **The span is the interval between two offsets**, as far as 32 bits reach. -/
structure IsInterval (s : Span) (start stop : Nat) : Prop where
  stop_eq : ∃ last, s.stop = .ok last ∧ last.toNat = min stop (2 ^ 32 - 1)
  range_eq : ∃ first last, s.range = .ok (first, last) ∧
    first.toNat = min start (2 ^ 32 - 1) ∧ last.toNat = min stop (2 ^ 32 - 1)
  /-- No span holds the greatest position, since spans end in front of one. -/
  contains_eq : ∀ position : UInt32, ∃ inside, s.contains position = .ok inside ∧
    (inside = true ↔
      start ≤ position.toNat ∧ position.toNat < stop ∧ position.toNat < 2 ^ 32 - 1)
  isEmpty_iff : s.isEmpty = true ↔ ∀ position, s.contains position ≠ .ok true

/-- **Two offsets make a span** unless they are in the wrong order once they are clipped. -/
structure OffsetsClipped (start stop : Nat) : Prop where
  refused : ∀ fault, ofOffsets start stop = .error fault ↔
    min stop (2 ^ 32 - 1) < min start (2 ^ 32 - 1) ∧ fault = .reversedBounds
  accepted : ¬ min stop (2 ^ 32 - 1) < min start (2 ^ 32 - 1) →
    ∃ s, ofOffsets start stop = .ok s ∧ s.IsInterval start stop
  accepted_of_le : start ≤ stop → ∃ s, ofOffsets start stop = .ok s
  /-- Offsets that are both clipped are accepted in any order. -/
  accepted_of_clipped : 2 ^ 32 - 1 ≤ start → 2 ^ 32 - 1 ≤ stop → ∃ s, ofOffsets start stop = .ok s

/-- **A span has an end** unless its start and its length come to more than 32 bits hold. -/
structure LengthChecked (s : Span) : Prop where
  stop_error : ∀ fault, s.stop = .error fault ↔
    2 ^ 32 - 1 < s.start.toNat + s.length.toNat ∧ fault = .endOverflow
  contains_error : ∀ position fault, s.contains position = .error fault ↔
    2 ^ 32 - 1 < s.start.toNat + s.length.toNat ∧ s.start ≤ position ∧ fault = .endOverflow

/-! ## Spans with an end -/

variable {s : Span} {last : UInt32} {start stop : Nat}

/-- A position is inside if it is not in front of the start and is in front of the end. -/
theorem contains_of_stop (h : s.stop = .ok last) (position : UInt32) :
    s.contains position = .ok (decide (s.start ≤ position ∧ position < last)) := by
  rw [contains, h]
  split
  · rename_i hbefore
    have hnot : ¬ (s.start ≤ position ∧ position < last) := fun hinside =>
      UInt32.not_le.mpr hbefore hinside.1
    rw [decide_eq_false hnot]
  · rename_i hbehind
    have hle : s.start ≤ position := UInt32.not_lt.mp hbehind
    simp [Except.map, hle]

/-- A span between two positions holds a position, the first one, unless the two are the same. -/
theorem isEmpty_iff_of_le {first : UInt32} (h : first ≤ last) :
    (⟨first, last - first⟩ : Span).isEmpty = true ↔
      ∀ position, (⟨first, last - first⟩ : Span).contains position ≠ .ok true := by
  have hcontains := contains_of_stop (stop_of_le h)
  have hlength : (last - first).toNat = last.toNat - first.toNat := UInt32.toNat_sub_of_le _ _ h
  rw [isEmpty, beq_iff_eq, ← UInt32.toNat_inj, UInt32.toNat_zero, hlength]
  constructor
  · intro hzero position hinside
    rw [hcontains, Except.ok.injEq, decide_eq_true_iff, UInt32.le_iff_toNat_le,
      UInt32.lt_iff_toNat_lt] at hinside
    dsimp only at hinside
    omega
  · intro hnone
    rcases Nat.eq_zero_or_pos (last.toNat - first.toNat) with hzero | hpos
    · exact hzero
    · have hlt : first < last := by
        rw [UInt32.lt_iff_toNat_lt]
        omega
      refine absurd ?_ (hnone first)
      rw [hcontains, decide_eq_true ⟨UInt32.le_refl first, hlt⟩]

/-! ## Spans between offsets -/

theorem clip_le_clip_iff : clip start ≤ clip stop ↔
    ¬ min stop (2 ^ 32 - 1) < min start (2 ^ 32 - 1) := by
  rw [UInt32.le_iff_toNat_le, toNat_clip, toNat_clip, Nat.not_lt]

/-- Clipped bounds in order make an interval. -/
theorem isInterval_of_le (h : clip start ≤ clip stop) :
    (⟨clip start, clip stop - clip start⟩ : Span).IsInterval start stop := by
  have hstop := stop_of_le h
  constructor
  case stop_eq => exact ⟨clip stop, hstop, toNat_clip stop⟩
  case range_eq =>
    refine ⟨clip start, clip stop, ?_, toNat_clip start, toNat_clip stop⟩
    rw [range, hstop]
    rfl
  case contains_eq =>
    intro position
    refine ⟨_, contains_of_stop hstop position, ?_⟩
    have hlt := position.toNat_lt
    rw [decide_eq_true_iff, UInt32.le_iff_toNat_le, UInt32.lt_iff_toNat_lt]
    dsimp only
    rw [toNat_clip, toNat_clip]
    omega
  case isEmpty_iff => exact isEmpty_iff_of_le h

theorem ofOffsets_of_le (h : clip start ≤ clip stop) :
    ofOffsets start stop = .ok ⟨clip start, clip stop - clip start⟩ := by
  rw [ofOffsets, ofBounds, if_pos h]

theorem offsetsClipped (start stop : Nat) : OffsetsClipped start stop := by
  constructor
  case refused =>
    intro fault
    by_cases hle : clip start ≤ clip stop
    · rw [ofOffsets_of_le hle]
      constructor
      · exact nofun
      · rintro ⟨hlt, -⟩
        exact absurd hlt (clip_le_clip_iff.mp hle)
    · rw [ofOffsets, ofBounds, if_neg hle, Except.error.injEq, eq_comm]
      have hlt := Decidable.not_not.mp (mt clip_le_clip_iff.mpr hle)
      exact (and_iff_right hlt).symm
  case accepted =>
    intro hnot
    have hle := clip_le_clip_iff.mpr hnot
    exact ⟨_, ofOffsets_of_le hle, isInterval_of_le hle⟩
  case accepted_of_le =>
    intro hle
    exact ⟨_, ofOffsets_of_le (clip_le_clip hle)⟩
  case accepted_of_clipped =>
    intro hstart hstop
    refine ⟨_, ofOffsets_of_le (clip_le_clip_iff.mpr ?_)⟩
    omega

/-! ## Spans of any length -/

theorem stop_eq_error_iff (s : Span) (fault : Fault) : s.stop = .error fault ↔
    2 ^ 32 - 1 < s.start.toNat + s.length.toNat ∧ fault = .endOverflow := by
  rw [stop]
  split
  · rename_i hfits
    constructor
    · intro herror
      cases herror
    · rintro ⟨hover, -⟩
      omega
  · rename_i hover
    rw [Except.error.injEq, eq_comm]
    have hlt : 2 ^ 32 - 1 < s.start.toNat + s.length.toNat := by omega
    exact (and_iff_right hlt).symm

theorem lengthChecked (s : Span) : s.LengthChecked := by
  constructor
  case stop_error => exact stop_eq_error_iff s
  case contains_error =>
    intro position fault
    rw [contains]
    split
    · rename_i hbefore
      constructor
      · exact nofun
      · rintro ⟨-, hbehind, -⟩
        exact absurd hbefore (UInt32.not_lt.mpr hbehind)
    · rename_i hbehind
      have hle : s.start ≤ position := UInt32.not_lt.mp hbehind
      -- the end is looked at, so the question fails as the end does
      have hmap : (s.stop.map fun stop => decide (position < stop)) = .error fault ↔
          s.stop = .error fault := by
        cases s.stop with
        | ok last => simp [Except.map]
        | error _ => simp [Except.map]
      rw [hmap, stop_eq_error_iff]
      simp only [hle, true_and]

/-- **Spans between offsets are clipped intervals**, and any other span either has an end or fails
where its end is asked for. -/
theorem clipped_intervals (start stop : Nat) (s : Span) :
    OffsetsClipped start stop ∧ s.LengthChecked :=
  ⟨offsetsClipped start stop, lengthChecked s⟩

/-- Offsets in the wrong order that are both beyond the greatest position. -/
example : ofOffsets (2 ^ 32 + 5) (2 ^ 32 - 1) = .ok ⟨4294967295, 0⟩ := rfl

/-- The greatest end that there may be, and one more. -/
example : (⟨1, 4294967294⟩ : Span).stop = .ok 4294967295 ∧
    (⟨2, 4294967294⟩ : Span).contains 1 = .ok false ∧
    (⟨2, 4294967294⟩ : Span).contains 2 = .error .endOverflow := ⟨rfl, rfl, rfl⟩

end Span

end LoxLexer
