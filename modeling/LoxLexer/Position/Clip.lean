/-!
# Clipped counts

Byte offsets and line numbers are stored in 32 bits. A count that does not fit is stored as
the greatest 32-bit number, so that order is kept: `clip_le_clip`. A sum of stored counts is
the count of the sum (`addClipped_clip`).
-/

set_option autoImplicit false

-- powers of natural numbers are those of the core library, here and in all modules that import
-- this one, whatever else they import
attribute [default_instance 20000] instPowNat

namespace LoxLexer

/-- A count in 32 bits; one above `2 ^ 32 - 1` is stored as `2 ^ 32 - 1`. -/
def clip (n : Nat) : UInt32 := UInt32.ofNatClamp n

theorem toNat_clip (n : Nat) : (clip n).toNat = min n (2 ^ 32 - 1) := by
  unfold clip UInt32.ofNatClamp
  split
  · rename_i h
    have : n < 2 ^ 32 := h
    rw [UInt32.toNat_ofNatLT]
    omega
  · rename_i h
    have : ¬ n < 2 ^ 32 := h
    rw [UInt32.toNat_ofNatLT]
    simp only [UInt32.size]
    omega

/-- A count that fits is stored as it is. -/
theorem clip_eq_ofNat {n : Nat} (h : n ≤ 2 ^ 32 - 1) : clip n = UInt32.ofNat n := by
  rw [← UInt32.toNat_inj, toNat_clip, UInt32.toNat_ofNat_of_lt']
  · omega
  · exact Nat.lt_of_le_of_lt h (by decide)

/-- A stored count is stored as it is. -/
theorem clip_toNat (n : UInt32) : clip n.toNat = n := by
  have hlt := n.toNat_lt
  rw [← UInt32.toNat_inj, toNat_clip]
  omega

/-- Clipping keeps the order of counts. -/
theorem clip_le_clip {m n : Nat} (h : m ≤ n) : clip m ≤ clip n := by
  rw [UInt32.le_iff_toNat_le, toNat_clip, toNat_clip]
  omega

/-- The sum of two clipped counts, clipped again. -/
def addClipped (m n : UInt32) : UInt32 := clip (m.toNat + n.toNat)

/-- Clipping the parts of a sum first makes no difference. -/
theorem addClipped_clip (m n : Nat) : addClipped (clip m) (clip n) = clip (m + n) := by
  rw [← UInt32.toNat_inj, addClipped, toNat_clip, toNat_clip, toNat_clip, toNat_clip]
  omega

/-- Clipping before something is added makes no difference either. -/
theorem clip_add (m n : Nat) : clip ((clip m).toNat + n) = clip (m + n) := by
  rw [← UInt32.toNat_inj, toNat_clip, toNat_clip, toNat_clip]
  omega

end LoxLexer
