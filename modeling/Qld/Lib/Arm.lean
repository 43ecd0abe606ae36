import Qld.Lib.A64

/-!
# Offsets and immediates of Arm instructions

What the architecture says a T32 word of two halfwords holds, the first halfword in the upper half.

* `thumbOffset24`, `thumbOffset19` — the offsets of branches;
* `thumbImmediate` — the immediate of `movw` and `movt`.
-/

namespace Qld.Lib.Arm

open A64 (signExtend)

/-- The offset of `bl`, `blx` and `b.w`: two bits are kept inverted when the sign is clear. -/
def thumbOffset24 (word : ℕ) : ℤ :=
  let s := bits word 26 1
  signExtend 25 (s * 2 ^ 24 + (bits word 13 1 + s + 1) % 2 * 2 ^ 23 +
    (bits word 11 1 + s + 1) % 2 * 2 ^ 22 + bits word 16 10 * 2 ^ 12 + bits word 0 11 * 2)

/-- The offset of `b<cond>.w`. -/
def thumbOffset19 (word : ℕ) : ℤ :=
  signExtend 21 (bits word 26 1 * 2 ^ 20 + bits word 11 1 * 2 ^ 19 + bits word 13 1 * 2 ^ 18 +
    bits word 16 6 * 2 ^ 12 + bits word 0 11 * 2)

/-- The immediate of `movw` and `movt`. -/
def thumbImmediate (word : ℕ) : ℕ :=
  bits word 16 4 * 2 ^ 12 + bits word 26 1 * 2 ^ 11 + bits word 12 3 * 2 ^ 8 + bits word 0 8

end Qld.Lib.Arm
