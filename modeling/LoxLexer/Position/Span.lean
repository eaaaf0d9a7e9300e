import LoxLexer.Position.Clip
import LoxLexer.Position.Fault

/-!
# Spans

A `Span` is a stretch of a source text, given by the byte it starts at and its length in
bytes. Spans may be made of any two 32-bit numbers; the questions that need the end of a
span, `start + length`, fail with `Fault.endOverflow` when it does not fit in 32 bits.

`Span.covering` makes the spans of the lexer. Its bounds are clipped and in order, so the
end of such a span always fits.
-/

set_option autoImplicit false

namespace LoxLexer

/-- A stretch of a text, in bytes. -/
structure Span where
  start : UInt32
  length : UInt32
deriving DecidableEq

/-- The empty span at the start of the text. -/
instance : Inhabited Span := ⟨⟨0, 0⟩⟩

namespace Span

/-! ## Making spans -/

/-- The empty span at a position. -/
def empty (position : UInt32) : Span := ⟨position, 0⟩

/-- The span between two positions, which must be in order. -/
def ofBounds (start stop : UInt32) : Except Fault Span :=
  if start ≤ stop then .ok ⟨start, stop - start⟩ else .error .reversedBounds

/-- The span between two byte offsets of any size, after clipping them. -/
def ofOffsets (start stop : Nat) : Except Fault Span := ofBounds (clip start) (clip stop)

/-- The span of `size` bytes from the byte offset `start` on, as far as 32 bits reach. -/
def covering (start size : Nat) : Span := ⟨clip start, clip (start + size) - clip start⟩

/-- The bounds of `covering` are in order, so it is the span between its offsets. -/
theorem ofOffsets_eq_covering (start size : Nat) :
    ofOffsets start (start + size) = .ok (covering start size) := by
  unfold ofOffsets ofBounds covering
  rw [if_pos (clip_le_clip (Nat.le_add_right start size))]

/-- Where 32 bits are enough, the start of `covering` is what it was given. -/
theorem toNat_start_covering {start size : Nat} (h : start + size ≤ 2 ^ 32 - 1) :
    (covering start size).start.toNat = start := by
  show (clip start).toNat = start
  rw [toNat_clip]
  omega

/-- Where 32 bits are enough, the length of `covering` is what it was given. -/
theorem toNat_length_covering {start size : Nat} (h : start + size ≤ 2 ^ 32 - 1) :
    (covering start size).length.toNat = size := by
  have hle : clip start ≤ clip (start + size) := clip_le_clip (Nat.le_add_right start size)
  show (clip (start + size) - clip start).toNat = size
  rw [UInt32.toNat_sub_of_le _ _ hle, toNat_clip, toNat_clip]
  omega

theorem covering_eq_ofNat {start size : Nat} (h : start + size ≤ 2 ^ 32 - 1) :
    covering start size = ⟨UInt32.ofNat start, UInt32.ofNat size⟩ := by
  calc
    covering start size
      = ⟨UInt32.ofNat (covering start size).start.toNat,
          UInt32.ofNat (covering start size).length.toNat⟩ := by
        rw [UInt32.ofNat_toNat, UInt32.ofNat_toNat]
    _ = ⟨UInt32.ofNat start, UInt32.ofNat size⟩ := by
        rw [toNat_start_covering h, toNat_length_covering h]

/-! ## Questions about a span -/

/-- Whether the span holds no byte. -/
def isEmpty (s : Span) : Bool := s.length == 0

/-- The position just after the span. -/
def stop (s : Span) : Except Fault UInt32 :=
  if s.start.toNat + s.length.toNat < 2 ^ 32 then .ok (s.start + s.length)
  else .error .endOverflow

/-- A span between two positions in order ends at the second of them. -/
theorem stop_of_le {first last : UInt32} (h : first ≤ last) :
    (⟨first, last - first⟩ : Span).stop = .ok last := by
  have hsum : first.toNat + (last - first).toNat = last.toNat := by
    rw [UInt32.toNat_sub_of_le _ _ h]
    exact Nat.add_sub_cancel' h
  have hstop : first + (last - first) = last := by
    rw [UInt32.add_comm, UInt32.sub_add_cancel]
  show (if first.toNat + (last - first).toNat < 2 ^ 32 then _ else _) = _
  rw [hsum, if_pos last.toNat_lt]
  exact congrArg Except.ok hstop

/-- Spans made by `covering` have an end, whatever the offsets are. -/
theorem stop_covering (start size : Nat) :
    (covering start size).stop = .ok (clip (start + size)) :=
  stop_of_le (clip_le_clip (Nat.le_add_right start size))

/-- An empty span ends where it starts. -/
theorem stop_empty (position : UInt32) : (empty position).stop = .ok position := by
  have hlt : (empty position).start.toNat + (empty position).length.toNat < 2 ^ 32 :=
    position.toNat_lt
  rw [stop, if_pos hlt]
  exact congrArg Except.ok (UInt32.add_zero position)

/-- Whether a position lies in the span. A position before the start is outside whatever the
end may be; any other is compared with the end. -/
def contains (s : Span) (position : UInt32) : Except Fault Bool :=
  if position < s.start then .ok false
  else s.stop.map fun stop => decide (position < stop)

/-- The two bounds of the span. -/
def range (s : Span) : Except Fault (UInt32 × UInt32) := s.stop.map fun stop => (s.start, stop)

/-- The text of a span, `start..end`. -/
def text (s : Span) : Except Fault String :=
  s.stop.map fun stop => s.start.toNat.repr ++ ".." ++ stop.toNat.repr

/-- The part of a source that a span covers: none if the span reaches beyond the source or
cuts a character in two. -/
def slice? (s : Span) (source : String) : Option String :=
  let stop := s.start.toNat + s.length.toNat
  if stop ≤ source.utf8ByteSize then
    String.fromUTF8? (source.toByteArray.extract s.start.toNat stop)
  else none

end Span

end LoxLexer
