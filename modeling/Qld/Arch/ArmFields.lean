import Mathlib.Algebra.Ring.Int.Defs
import Qld.Arch.Arm
import Qld.Lib.WordFields

/-!
# Fields of Arm instructions, read back

* `Field.runs` — the bits of a field; `Field.share` — the part of a value that belongs to it;
* `Field.Holds` — the values a field can hold; `Field.RoundTrips` — what an encoder promises;
* `groupShare`, `IsRotated` — the group an A32 immediate takes, and what such an immediate can be;
* `sum_groupShare` — the groups and what is left add up;
* `Field.encode_roundTrips` — every field holds what it was given, or overflows.
-/

namespace Qld.Arch.Arm

open Qld.Lib
open Qld.Lib.A64 (signExtend)
open Qld.Lib.Arm (thumbOffset24 thumbOffset19 thumbImmediate)
open Qld.Arch.Aarch64 (Overflow U32_MAX asU32 fitsSigned fitsSigned_iff)

/-! ### The fields -/

/-- The bits that a field takes: of its immediate, of the sign, and of the opcode it sets. -/
def Field.runs : Field → List (ℕ × ℕ)
  | .branch24 => [(0, 24)]
  | .thumbBranch24 => [(0, 12), (13, 1), (16, 11), (27, 5)]
  | .thumbBranch19 => [(0, 16), (16, 6), (26, 1)]
  | .thumbBranch11 => [(0, 11)]
  | .thumbBranch8 | .thumbPc8 => [(0, 8)]
  | .movw | .movt => [(0, 12), (16, 4)]
  | .thumbMovw | .thumbMovt => [(0, 8), (12, 3), (16, 4), (26, 1)]
  | .prel31 => [(0, 31)]
  | .thumbAdr => [(0, 8), (12, 3), (20, 4), (26, 1)]
  | .thumbLdrLiteral | .ldrGroup _ => [(0, 12), (23, 1)]
  | .ldrsGroup _ => [(0, 4), (8, 4), (23, 1)]
  | .aluGroup _ _ => [(0, 12), (22, 2)]
  | .thumbJump6 => [(3, 5), (9, 1)]

/-- A magnitude with the sign of a value. -/
def withSign (value : ℤ) (n : ℕ) : ℤ := if value < 0 then -n else n

/-- The most significant group of `value`, as an A32 immediate expands to it. -/
def groupShare (value : ℕ) : ℕ :=
  rotateRight32 (groupImmediate value).1 ((groupImmediate value).2 * 2)

/-- What an A32 immediate can be: eight bits, rotated by an even number. -/
def IsRotated (value : ℕ) : Prop :=
  ∃ imm < 2 ^ 8, ∃ rotate < 2 ^ 4, value = rotateRight32 imm (rotate * 2)

/-- The part of a value that belongs to a field. -/
def Field.share (field : Field) (value : ℤ) : ℤ :=
  match field with
  | .branch24 => value / 4 * 4
  | .thumbBranch24 | .thumbBranch19 | .thumbBranch11 | .thumbBranch8 => value / 2 * 2
  | .movw | .thumbMovw => signExtend 16 (value % 2 ^ 16).toNat
  | .movt | .thumbMovt => signExtend 16 (value / 2 ^ 16 % 2 ^ 16).toNat
  | .prel31 | .thumbAdr | .thumbLdrLiteral | .thumbPc8 | .thumbJump6 => value
  | .ldrGroup group | .ldrsGroup group => withSign value (groupResidual value.natAbs group)
  | .aluGroup group _ => withSign value (groupShare (groupResidual value.natAbs group))

/-- The values that a field can hold. -/
def Field.Holds (field : Field) (value : ℤ) : Prop :=
  match field with
  | .branch24 => -2 ^ 25 ≤ value ∧ value < 2 ^ 25
  | .thumbBranch24 => -2 ^ 24 ≤ value ∧ value < 2 ^ 24
  | .thumbBranch19 => -2 ^ 20 ≤ value ∧ value < 2 ^ 20
  | .thumbBranch11 => -2 ^ 11 ≤ value ∧ value < 2 ^ 11
  | .thumbBranch8 => -2 ^ 8 ≤ value ∧ value < 2 ^ 8
  -- Each takes one half of the value.
  | .movw | .movt | .thumbMovw | .thumbMovt => True
  | .prel31 => -2 ^ 30 ≤ value ∧ value < 2 ^ 30
  | .thumbAdr | .thumbLdrLiteral => value.natAbs < 2 ^ 12
  | .ldrGroup group => value.natAbs < 2 ^ 32 ∧ groupResidual value.natAbs group < 2 ^ 12
  | .ldrsGroup group => value.natAbs < 2 ^ 32 ∧ groupResidual value.natAbs group < 2 ^ 8
  | .aluGroup group checked =>
    value.natAbs < 2 ^ 32 ∧ (checked = true → groupResidual value.natAbs (group + 1) = 0)
  | .thumbPc8 => 4 ∣ value ∧ 0 ≤ value ∧ value ≤ 1020
  | .thumbJump6 => 2 ∣ value ∧ 0 ≤ value ∧ value ≤ 126

/-- What was packed is read back and nothing else changes; what cannot be held is an error. -/
def Field.RoundTrips (field : Field) (insn : ℕ) (value : ℤ) : Prop :=
  (∀ word, field.encode insn value = .ok word →
    word < 2 ^ 32 ∧ KeepsOutside field.runs (8 * field.bytes) insn word ∧
      -- The addend of `thumbPc8` counts from the program counter.
      (field ≠ .thumbPc8 → field.decode word = field.share value)) ∧
  (field.encode insn value = .error {} ↔ ¬field.Holds value)

/-! ### Signs -/

theorem signExtendBits_eq {value n : ℕ} (hn : 0 < n) (h32 : n ≤ 32) (hvalue : value < 2 ^ n) :
    signExtendBits value n = signExtend n value := by
  obtain ⟨m, rfl⟩ := Nat.exists_eq_add_one_of_ne_zero (Nat.pos_iff_ne_zero.mp hn)
  have hpos : (0 : ℤ) < 2 ^ (32 - (m + 1)) := Int.pow_pos (by decide)
  have hhalf : (2 ^ m : ℤ) * 2 ^ (32 - (m + 1)) = 2 ^ 31 := by
    rw [← pow_add]
    congr 1
    omega
  have hdouble : (2 ^ (m + 1) : ℤ) = 2 * 2 ^ m := pow_succ' 2 m
  have hlt : (value : ℤ) < 2 ^ (m + 1) := by exact_mod_cast hvalue
  show (((value <<< (32 - (m + 1)) : ℕ) + 2 ^ 31 : ℤ) % 2 ^ 32 - 2 ^ 31) >>> (32 - (m + 1)) = _
  rw [signExtend, Nat.add_sub_cancel, Nat.shiftLeft_eq, Int.shiftRight_eq_div_pow, Int.natCast_mul,
    Int.natCast_pow, Int.cast_ofNat_Int]
  generalize (2 ^ (32 - (m + 1)) : ℤ) = unit at hpos hhalf ⊢
  by_cases hneg : value < 2 ^ m
  · have hlt' : (value : ℤ) < 2 ^ m := by exact_mod_cast hneg
    have hprod : (value : ℤ) * unit < 2 ^ 31 := hhalf ▸ Int.mul_lt_mul_of_pos_right hlt' hpos
    have hnonneg : 0 ≤ (value : ℤ) * unit := Int.mul_nonneg (by omega) hpos.le
    rw [if_pos hneg, Int.emod_eq_of_lt (by omega) (by omega), Int.add_sub_cancel,
      Int.mul_ediv_cancel _ hpos.ne']
  · have hge' : (2 ^ m : ℤ) ≤ value := by exact_mod_cast Nat.le_of_not_lt hneg
    have hge : 2 ^ 31 ≤ (value : ℤ) * unit := hhalf ▸ Int.mul_le_mul_of_nonneg_right hge' hpos.le
    have hwhole : (2 ^ (m + 1) : ℤ) * unit = 2 ^ 32 := by
      rw [hdouble, Int.mul_assoc, hhalf]
      rfl
    have hprod : (value : ℤ) * unit < 2 ^ 32 := hwhole ▸ Int.mul_lt_mul_of_pos_right hlt hpos
    have hmod : ((value : ℤ) * unit + 2 ^ 31) % 2 ^ 32 = value * unit + 2 ^ 31 - 2 ^ 32 := by
      rw [← Int.sub_emod_right, Int.emod_eq_of_lt (by omega) (by omega)]
    have hsub : (value : ℤ) * unit + 2 ^ 31 - 2 ^ 32 - 2 ^ 31 = (value - 2 ^ (m + 1)) * unit := by
      rw [Int.sub_mul, hwhole]
      omega
    rw [if_neg hneg, hmod, hsub, Int.mul_ediv_cancel _ hpos.ne']

/-! ### What a field reads -/

section Decode

variable (word : ℕ)

theorem decode_branch24 : Field.branch24.decode word = signExtend 26 (bits word 0 24 * 4) := by
  have himm : (word &&& 0x00ffffff) <<< 2 = bits word 0 24 * 4 := by
    rw [show 0x00ffffff = 2 ^ 24 - 1 from rfl, land_low_mask, Nat.shiftLeft_eq]
  have hlt := bits_lt word 0 24
  rw [Field.decode, himm, signExtendBits_eq (by decide) (by decide) (by omega)]

theorem decode_thumbBranch11 : Field.thumbBranch11.decode word =
    signExtend 12 (bits word 0 11 * 2) := by
  have himm : (word &&& 0x7ff) <<< 1 = bits word 0 11 * 2 := by
    rw [show 0x7ff = 2 ^ 11 - 1 from rfl, land_low_mask, Nat.shiftLeft_eq]
  have hlt := bits_lt word 0 11
  rw [Field.decode, himm, signExtendBits_eq (by decide) (by decide) (by omega)]

theorem decode_thumbBranch8 : Field.thumbBranch8.decode word =
    signExtend 9 (bits word 0 8 * 2) := by
  have himm : (word &&& 0xff) <<< 1 = bits word 0 8 * 2 := by
    rw [show 0xff = 2 ^ 8 - 1 from rfl, land_low_mask, Nat.shiftLeft_eq]
  have hlt := bits_lt word 0 8
  rw [Field.decode, himm, signExtendBits_eq (by decide) (by decide) (by omega)]

theorem decode_prel31 : Field.prel31.decode word = signExtend 31 (bits word 0 31) := by
  rw [Field.decode, show 0x7fffffff = 2 ^ 31 - 1 from rfl, land_low_mask,
    signExtendBits_eq (by decide) (by decide) (bits_lt word 0 31)]

theorem one_sub_xor {a b : ℕ} (ha : a < 2) (hb : b < 2) :
    1 - (a ^^^ b) &&& 1 = (a + b + 1) % 2 := by
  have ha' : a = 0 ∨ a = 1 := by omega
  have hb' : b = 0 ∨ b = 1 := by omega
  rcases ha' with rfl | rfl <;> rcases hb' with rfl | rfl <;> rfl

theorem shiftRight_xor_lt {insn : ℕ} (hinsn : insn < 2 ^ 32) (k b : ℕ) :
    insn >>> k ^^^ (b &&& 1) < 2 ^ 32 := by
  refine Nat.xor_lt_two_pow ?_ (Nat.and_lt_two_pow b (by decide))
  rw [Nat.shiftRight_eq_div_pow]
  exact (Nat.div_le_self _ _).trans_lt hinsn

theorem decode_thumbBranch24 : Field.thumbBranch24.decode word = thumbOffset24 word := by
  have hsplit (x : ℕ) (hx : x < 2 ^ 25) : x = bits x 24 1 * 2 ^ 24 + bits x 23 1 * 2 ^ 23 +
      bits x 22 1 * 2 ^ 22 + bits x 12 10 * 2 ^ 12 + bits x 1 11 * 2 + bits x 0 1 := by
    have hlast : x % 2 ^ 1 = bits x 0 1 := by rw [bits, Nat.pow_zero, Nat.div_one]
    refine (Nat.mod_eq_of_lt hx).symm.trans ?_
    rw [mod_bits x 24 1, mod_bits x 23 1, mod_bits x 22 1, mod_bits x 12 10, mod_bits x 1 11,
      hlast]
    omega
  have hlow : word &&& 0xffff < 2 ^ 32 := Nat.and_lt_two_pow word (by decide)
  have h13 := shiftRight_xor_lt hlow 13 (word >>> 16 >>> 10)
  have h11 := shiftRight_xor_lt hlow 11 (word >>> 16 >>> 10)
  have h23 := one_sub_xor (bits_lt_two word 13) (bits_lt_two word 26)
  have h22 := one_sub_xor (bits_lt_two word 11) (bits_lt_two word 26)
  have hlt : (word >>> 16 >>> 10 &&& 1) <<< 24 |||
      (not32 ((word &&& 0xffff) >>> 13 ^^^ word >>> 16 >>> 10 &&& 1) &&& 1) <<< 23 |||
      (not32 ((word &&& 0xffff) >>> 11 ^^^ word >>> 16 >>> 10 &&& 1) &&& 1) <<< 22 |||
      (word >>> 16 &&& 0x3ff) <<< 12 ||| (word &&& 0xffff &&& 0x7ff) <<< 1 < 2 ^ 25 := by
    refine Nat.or_lt_two_pow (Nat.or_lt_two_pow (Nat.or_lt_two_pow (Nat.or_lt_two_pow ?_ ?_) ?_)
      ?_) ?_ <;> exact land_shiftLeft_lt _ (by decide)
  rw [Field.decode, thumbOffset24, signExtendBits_eq (by decide) (by decide) hlt]
  congr 1
  refine (hsplit _ hlt).trans ?_
  simp [bits_shiftLeft, bits_shiftLeft_low, bits_not32 h13, bits_not32 h11, h23, h22,
    -Nat.and_one_is_mod]

theorem decode_thumbBranch19 : Field.thumbBranch19.decode word = thumbOffset19 word := by
  have hsplit (x : ℕ) (hx : x < 2 ^ 21) : x = bits x 20 1 * 2 ^ 20 + bits x 19 1 * 2 ^ 19 +
      bits x 18 1 * 2 ^ 18 + bits x 12 6 * 2 ^ 12 + bits x 1 11 * 2 + bits x 0 1 := by
    have hlast : x % 2 ^ 1 = bits x 0 1 := by rw [bits, Nat.pow_zero, Nat.div_one]
    refine (Nat.mod_eq_of_lt hx).symm.trans ?_
    rw [mod_bits x 20 1, mod_bits x 19 1, mod_bits x 18 1, mod_bits x 12 6, mod_bits x 1 11, hlast]
    omega
  have hlt : (word >>> 16 >>> 10 &&& 1) <<< 20 ||| ((word &&& 0xffff) >>> 11 &&& 1) <<< 19 |||
      ((word &&& 0xffff) >>> 13 &&& 1) <<< 18 ||| (word >>> 16 &&& 0x3f) <<< 12 |||
      (word &&& 0xffff &&& 0x7ff) <<< 1 < 2 ^ 21 := by
    refine Nat.or_lt_two_pow (Nat.or_lt_two_pow (Nat.or_lt_two_pow (Nat.or_lt_two_pow ?_ ?_) ?_)
      ?_) ?_ <;> exact land_shiftLeft_lt _ (by decide)
  rw [Field.decode, thumbOffset19, signExtendBits_eq (by decide) (by decide) hlt]
  congr 1
  refine (hsplit _ hlt).trans ?_
  simp [bits_shiftLeft, bits_shiftLeft_low, -Nat.and_one_is_mod]

/-- The immediate of an A32 `movw` or `movt`. -/
def armImmediate (word : ℕ) : ℕ := bits word 16 4 * 2 ^ 12 + bits word 0 12

theorem decode_armMov :
    signExtendBits ((word >>> 4 &&& 0xf000) ||| (word &&& 0x0fff)) 16 =
      signExtend 16 (armImmediate word) := by
  have hsplit (x : ℕ) (hx : x < 2 ^ 16) : x = bits x 12 4 * 2 ^ 12 + bits x 0 12 := by
    simp only [bits]
    omega
  have hlt : (word >>> 4 &&& 0xf000) ||| (word &&& 0x0fff) < 2 ^ 16 :=
    Nat.or_lt_two_pow (Nat.and_lt_two_pow _ (by decide)) (Nat.and_lt_two_pow _ (by decide))
  rw [signExtendBits_eq (by decide) (by decide) hlt, armImmediate]
  congr 1
  refine (hsplit _ hlt).trans ?_
  simp

theorem decode_thumbMov :
    signExtendBits ((word >>> 16 &&& 0xf) <<< 12 ||| (word >>> 16 &&& 0x400) <<< 1 |||
      (word &&& 0xffff &&& 0x7000) >>> 4 ||| (word &&& 0xffff &&& 0xff)) 16 =
      signExtend 16 (thumbImmediate word) := by
  have hsplit (x : ℕ) (hx : x < 2 ^ 16) : x = bits x 12 4 * 2 ^ 12 + bits x 11 1 * 2 ^ 11 +
      bits x 8 3 * 2 ^ 8 + bits x 0 8 := by
    simp only [bits]
    omega
  have hlt : (word >>> 16 &&& 0xf) <<< 12 ||| (word >>> 16 &&& 0x400) <<< 1 |||
      (word &&& 0xffff &&& 0x7000) >>> 4 ||| (word &&& 0xffff &&& 0xff) < 2 ^ 16 := by
    refine Nat.or_lt_two_pow (Nat.or_lt_two_pow (Nat.or_lt_two_pow ?_ ?_) ?_) ?_
    · exact land_shiftLeft_lt _ (by decide)
    · exact land_shiftLeft_lt _ (by decide)
    · rw [Nat.shiftRight_and_distrib]
      exact Nat.and_lt_two_pow _ (by decide)
    · exact Nat.and_lt_two_pow _ (by decide)
  rw [signExtendBits_eq (by decide) (by decide) hlt, thumbImmediate]
  congr 1
  refine (hsplit _ hlt).trans ?_
  simp [bits_shiftLeft, bits_shiftLeft_low, Nat.shiftLeft_and_distrib]

/-- An offset with the sign in bit 23. -/
def upOffset (word imm : ℕ) : ℤ := if bits word 23 1 = 1 then imm else -imm

theorem decode_ldrGroup (group : ℕ) :
    (Field.ldrGroup group).decode word = upOffset word (bits word 0 12) := by
  rw [Field.decode, show 0xfff = 2 ^ 12 - 1 from rfl, land_low_mask]
  simp only [show 0x00800000 = 2 ^ 23 from rfl, land_two_pow_ne_zero]
  rfl

theorem decode_thumbLdrLiteral :
    Field.thumbLdrLiteral.decode word = upOffset word (bits word 0 12) := by
  have hup : word >>> 16 &&& 2 ^ 7 ≠ 0 ↔ bits word 23 1 = 1 := by
    rw [land_two_pow_ne_zero, bits_shiftRight]
  have himm : word &&& 0xffff &&& 0xfff = bits word 0 12 := by
    rw [Nat.and_assoc, ← land_low_mask]
    rfl
  rw [Field.decode, himm]
  simp only [show 0x80 = 2 ^ 7 from rfl, hup]
  rfl

theorem decode_ldrsGroup (group : ℕ) : (Field.ldrsGroup group).decode word =
    upOffset word (bits word 8 4 * 2 ^ 4 + bits word 0 4) := by
  have himm : (word >>> 4 &&& 0xf0) ||| (word &&& 0xf) = bits word 8 4 * 2 ^ 4 + bits word 0 4 := by
    have hsplit (x : ℕ) (hx : x < 2 ^ 8) : x = bits x 4 4 * 2 ^ 4 + bits x 0 4 := by
      simp only [bits]
      omega
    have hlt : (word >>> 4 &&& 0xf0) ||| (word &&& 0xf) < 2 ^ 8 :=
      Nat.or_lt_two_pow (Nat.and_lt_two_pow _ (by decide)) (Nat.and_lt_two_pow _ (by decide))
    refine (hsplit _ hlt).trans ?_
    simp
  rw [Field.decode, himm]
  simp only [show 0x00800000 = 2 ^ 23 from rfl, land_two_pow_ne_zero]
  rfl

theorem decode_thumbAdr : Field.thumbAdr.decode word =
    if bits word 20 4 = 0 then
      ((bits word 26 1 * 2 ^ 11 + bits word 12 3 * 2 ^ 8 + bits word 0 8 : ℕ) : ℤ)
    else -((bits word 26 1 * 2 ^ 11 + bits word 12 3 * 2 ^ 8 + bits word 0 8 : ℕ) : ℤ) := by
  have himm : (word >>> 16 &&& 0x400) <<< 1 ||| (word &&& 0xffff &&& 0x7000) >>> 4 |||
      (word &&& 0xffff &&& 0xff) =
        bits word 26 1 * 2 ^ 11 + bits word 12 3 * 2 ^ 8 + bits word 0 8 := by
    have hsplit (x : ℕ) (hx : x < 2 ^ 12) : x = bits x 11 1 * 2 ^ 11 + bits x 8 3 * 2 ^ 8 +
        bits x 0 8 := by
      simp only [bits]
      omega
    have hlt : (word >>> 16 &&& 0x400) <<< 1 ||| (word &&& 0xffff &&& 0x7000) >>> 4 |||
        (word &&& 0xffff &&& 0xff) < 2 ^ 12 := by
      refine Nat.or_lt_two_pow (Nat.or_lt_two_pow ?_ ?_) ?_
      · exact land_shiftLeft_lt _ (by decide)
      · rw [Nat.shiftRight_and_distrib]
        exact Nat.and_lt_two_pow _ (by decide)
      · exact Nat.and_lt_two_pow _ (by decide)
    refine (hsplit _ hlt).trans ?_
    simp [bits_shiftLeft, Nat.shiftLeft_and_distrib]
  have hsub : word >>> 16 &&& 0xf0 = bits word 20 4 * 2 ^ 4 := by
    have hmask := land_mask (word >>> 16) 4 4
    rwa [← bits, bits_shiftRight] at hmask
  rw [Field.decode, himm, hsub]
  by_cases hzero : bits word 20 4 = 0
  · rw [if_pos hzero, if_neg (by omega)]
  · rw [if_neg hzero, if_pos (by omega)]

theorem decode_thumbJump6 :
    Field.thumbJump6.decode word = (bits word 9 1 * 2 ^ 6 + bits word 3 5 * 2 : ℕ) := by
  have hhigh : word >>> 9 &&& (2 ^ 1 - 1) = bits word 9 1 := by
    rw [land_low_mask, bits_shiftRight]
  have hlow : word >>> 3 &&& 0x1f = bits word 3 5 := by
    rw [show 0x1f = 2 ^ 5 - 1 from rfl, land_low_mask, bits_shiftRight]
  have hlt := bits_lt word 3 5
  rw [Field.decode, show word >>> 9 &&& 1 = bits word 9 1 from hhigh, hlow, Nat.or_comm,
    or_shiftLeft _ (by rw [Nat.shiftLeft_eq]; omega),
    Nat.shiftLeft_eq, Nat.add_comm]

theorem decode_aluGroup (group : ℕ) (checked : Bool) : (Field.aluGroup group checked).decode word =
    if bits word 22 1 = 1 then -(rotateRight32 (bits word 0 8) (bits word 8 4 * 2) : ℤ)
    else rotateRight32 (bits word 0 8) (bits word 8 4 * 2) := by
  have hrotate : word >>> 8 &&& 0xf = bits word 8 4 := by
    rw [show 0xf = 2 ^ 4 - 1 from rfl, land_low_mask, bits_shiftRight]
  rw [Field.decode, hrotate, show 0xff = 2 ^ 8 - 1 from rfl, land_low_mask]
  simp only [show 0x00400000 = 2 ^ 22 from rfl, land_two_pow_ne_zero]

end Decode

/-! ### Groups -/

theorem rotateRight32_zero {value : ℕ} (h : value < 2 ^ 32) : rotateRight32 value 0 = value := by
  rw [rotateRight32, Nat.zero_mod, Nat.sub_zero, Nat.shiftRight_zero, Nat.or_mod_two_pow,
    Nat.shiftLeft_eq, Nat.mul_mod_left, Nat.or_zero, Nat.mod_eq_of_lt h]

theorem rotateRight32_of_lt {imm n : ℕ} (himm : imm < 2 ^ 8) (h8 : 8 ≤ n) (h32 : n < 32) :
    rotateRight32 imm n = imm * 2 ^ (32 - n) := by
  have hzero : imm >>> n = 0 := by
    rw [Nat.shiftRight_eq_div_pow, Nat.div_eq_of_lt]
    exact himm.trans_le (Nat.pow_le_pow_right (by decide) h8)
  have hlt : imm * 2 ^ (32 - n) < 2 ^ 32 := by
    calc imm * 2 ^ (32 - n) < 2 ^ 8 * 2 ^ (32 - n) :=
          Nat.mul_lt_mul_of_pos_right himm (Nat.two_pow_pos _)
      _ = 2 ^ (8 + (32 - n)) := (Nat.pow_add 2 8 (32 - n)).symm
      _ ≤ 2 ^ 32 := Nat.pow_le_pow_right (by decide) (by omega)
  rw [rotateRight32, Nat.mod_eq_of_lt h32, hzero, Nat.zero_or, Nat.shiftLeft_eq,
    Nat.mod_eq_of_lt hlt]

theorem lt_of_le_leadingZeros32 {value k : ℕ} (hvalue : value < 2 ^ 32)
    (hk : k ≤ leadingZeros32 value) :
    value < 2 ^ (32 - k) := by
  rw [leadingZeros32] at hk
  split at hk
  · next hzero => exact hzero ▸ Nat.two_pow_pos _
  · next hne =>
    have hlog : value.log2 < 32 := (Nat.log2_lt hne).mpr hvalue
    exact Nat.lt_log2_self.trans_le (Nat.pow_le_pow_right (by decide) (by omega))

section Group

variable {value : ℕ}

/-- The group of a value and what is left of it, in two ways. -/
theorem group_cases (hvalue : value < 2 ^ 32) :
    (groupShare value = value ∧ nextResidual value = 0) ∨
      ∃ k, groupShare value = value / 2 ^ k * 2 ^ k ∧ nextResidual value = value % 2 ^ k := by
  rw [groupShare, groupImmediate, nextResidual]
  by_cases hlz : 24 ≤ leadingZeros32 value / 2 * 2
  · have hlt : value < 2 ^ (32 - 24) := lt_of_le_leadingZeros32 hvalue (by omega)
    refine .inl ⟨?_, if_pos hlz⟩
    simp only [if_pos hlz]
    rw [show 0xff = 2 ^ 8 - 1 from rfl, Nat.and_two_pow_sub_one_of_lt_two_pow hlt, Nat.zero_mul,
      rotateRight32_zero hvalue]
  · have hlt := lt_of_le_leadingZeros32 hvalue (show leadingZeros32 value / 2 * 2 ≤ _ by omega)
    refine .inr ⟨24 - leadingZeros32 value / 2 * 2, ?_⟩
    simp only [if_neg hlz]
    generalize hk : leadingZeros32 value / 2 * 2 = lz at *
    have hmask : ∀ lz < 24, 0x00ffffff >>> lz = 2 ^ (24 - lz) - 1 := by decide
    have himm : value / 2 ^ (24 - lz) < 2 ^ 8 := by
      rw [Nat.div_lt_iff_lt_mul (Nat.two_pow_pos _), ← Nat.pow_add]
      rwa [show 8 + (24 - lz) = 32 - lz by omega]
    refine ⟨?_, ?_⟩
    · rw [Nat.shiftRight_eq_div_pow, show 0xff = 2 ^ 8 - 1 from rfl,
        Nat.and_two_pow_sub_one_of_lt_two_pow himm, rotateRight32_of_lt himm (by omega) (by omega)]
      congr 2
      omega
    · rw [hmask lz (by omega), Nat.and_two_pow_sub_one_eq_mod]

/-- **A group and what it leaves.** -/
theorem groupShare_add (hvalue : value < 2 ^ 32) :
    groupShare value + nextResidual value = value := by
  rcases group_cases hvalue with ⟨hshare, hleft⟩ | ⟨k, hshare, hleft⟩
  · rw [hshare, hleft, Nat.add_zero]
  · rw [hshare, hleft, Nat.div_add_mod']

theorem groupResidual_succ (value group : ℕ) :
    groupResidual value (group + 1) = nextResidual (groupResidual value group) :=
  Function.iterate_succ_apply' nextResidual group value

theorem groupResidual_lt (hvalue : value < 2 ^ 32) (group : ℕ) :
    groupResidual value group < 2 ^ 32 := by
  induction group with
  | zero => exact hvalue
  | succ group ih =>
    have := groupShare_add ih
    rw [groupResidual_succ]
    omega

/-- **The groups and what is left add up.** -/
theorem sum_groupShare (hvalue : value < 2 ^ 32) (n : ℕ) :
    ((List.range n).map fun group => groupShare (groupResidual value group)).sum +
      groupResidual value n = value := by
  induction n with
  | zero => exact Nat.zero_add value
  | succ n ih =>
    have hstep := groupShare_add (groupResidual_lt hvalue n)
    rw [List.range_succ, List.map_append, List.sum_append, groupResidual_succ, List.map_singleton,
      List.sum_singleton, Nat.add_assoc, hstep, ih]

theorem groupImmediate_lt (value : ℕ) :
    (groupImmediate value).1 < 2 ^ 8 ∧ (groupImmediate value).2 < 2 ^ 4 := by
  rw [groupImmediate]
  split
  · exact ⟨Nat.and_lt_two_pow value (by decide), Nat.two_pow_pos 4⟩
  · refine ⟨Nat.and_lt_two_pow _ (by decide), ?_⟩
    show (leadingZeros32 value / 2 * 2 + 8) / 2 < 2 ^ 4
    omega

/-- **A group is a valid immediate.** -/
theorem isRotated_groupShare (value : ℕ) : IsRotated (groupShare value) :=
  ⟨_, (groupImmediate_lt value).1, _, (groupImmediate_lt value).2, rfl⟩

end Group

/-! ### The fields, one by one -/

section Fields

variable {field : Field} {insn : ℕ} {value : ℤ}

variable {word imm : ℕ}

/-- A field that is packed when a condition fails, which is when it holds the value. -/
theorem roundTrips_of_ite {c : Prop} [Decidable c]
    (hencode : field.encode insn value = if c then .error {} else .ok word)
    (hholds : ¬c ↔ field.Holds value) (hword : field.Holds value → word < 2 ^ 32 ∧
      KeepsOutside field.runs (8 * field.bytes) insn word ∧
        (field ≠ .thumbPc8 → field.decode word = field.share value)) :
    field.RoundTrips insn value := by
  refine ⟨fun w hw => ?_, ?_⟩
  · rw [hencode] at hw
    obtain ⟨hc, hw⟩ := ite_error_eq_ok.mp hw
    obtain rfl := Except.ok.inj hw
    exact hword (hholds.mp hc)
  · rw [hencode, ← hholds, Classical.not_not]
    by_cases hc : c
    · rw [if_pos hc]
      exact iff_of_true rfl hc
    · rw [if_neg hc]
      exact iff_of_false (fun h => by cases h) hc

theorem roundTrips_of_fits {n : ℕ} (hn : 0 < n) (h64 : n < 64)
    (hencode : field.encode insn value = if fitsSigned value n = false then .error {} else .ok word)
    (hholds : field.Holds value ↔ -2 ^ (n - 1) ≤ value ∧ value < 2 ^ (n - 1)) (hlt : word < 2 ^ 32)
    (hkeeps : KeepsOutside field.runs (8 * field.bytes) insn word)
    (hdecode : field.Holds value → field.decode word = field.share value) :
    field.RoundTrips insn value := by
  refine roundTrips_of_ite hencode ?_ fun h => ⟨hlt, hkeeps, fun _ => hdecode h⟩
  rw [Bool.not_eq_false, hholds, fitsSigned_iff hn h64]

theorem roundTrips_branch24 : Field.branch24.RoundTrips insn value := by
  refine roundTrips_of_fits (by decide) (by decide) rfl Iff.rfl ?_ ?_ fun hholds => ?_
  · exact Nat.or_lt_two_pow (Nat.and_lt_two_pow _ (by decide)) (Nat.and_lt_two_pow _ (by decide))
  · exact keepsOutside_of_bits [(24, 8)] (by decide) (by simp)
  · have hfits : fitsSigned value 26 = true := (fitsSigned_iff (by decide) (by decide)).mpr hholds
    rw [decode_branch24, Field.share, ← signExtend_offset26 hfits]
    simp

theorem roundTrips_thumbBranch11 : Field.thumbBranch11.RoundTrips insn value := by
  refine roundTrips_of_fits (by decide) (by decide) rfl Iff.rfl ?_ ?_ fun hholds => ?_
  · exact Nat.or_lt_two_pow (Nat.and_lt_two_pow _ (by decide)) (Nat.and_lt_two_pow _ (by decide))
  · exact keepsOutside_of_bits [(11, 5)] (by decide) (by simp)
  · obtain ⟨hlow, hhigh⟩ := hholds
    have hoffset : signExtend 12 (bits (asU32 value) 1 11 * 2) = value / 2 * 2 := by
      rw [signExtend, bits, asU32]
      split <;> omega
    rw [decode_thumbBranch11, Field.share, ← hoffset]
    simp

theorem roundTrips_thumbBranch8 : Field.thumbBranch8.RoundTrips insn value := by
  refine roundTrips_of_fits (by decide) (by decide) rfl Iff.rfl ?_ ?_ fun hholds => ?_
  · exact Nat.or_lt_two_pow (Nat.and_lt_two_pow _ (by decide)) (Nat.and_lt_two_pow _ (by decide))
  · exact keepsOutside_of_bits [(8, 8)] (by decide) (by simp)
  · obtain ⟨hlow, hhigh⟩ := hholds
    have hoffset : signExtend 9 (bits (asU32 value) 1 8 * 2) = value / 2 * 2 := by
      rw [signExtend, bits, asU32]
      split <;> omega
    rw [decode_thumbBranch8, Field.share, ← hoffset]
    simp

theorem roundTrips_prel31 : Field.prel31.RoundTrips insn value := by
  refine roundTrips_of_fits (by decide) (by decide) rfl Iff.rfl ?_ ?_ fun hholds => ?_
  · exact Nat.or_lt_two_pow (Nat.and_lt_two_pow _ (by decide)) (Nat.and_lt_two_pow _ (by decide))
  · exact keepsOutside_of_bits [(31, 1)] (by decide) (by simp)
  · obtain ⟨hlow, hhigh⟩ := hholds
    have hoffset : signExtend 31 (bits (asU32 value) 0 31) = value := by
      rw [signExtend, bits, asU32]
      split <;> omega
    refine Eq.trans ?_ hoffset
    rw [decode_prel31]
    simp

theorem roundTrips_thumbBranch24 : Field.thumbBranch24.RoundTrips insn value := by
  have hfits : fitsSigned value 25 = true ↔ Field.thumbBranch24.Holds value :=
    fitsSigned_iff (by decide) (by decide)
  refine roundTrips_of_ite rfl (by rw [Bool.not_eq_false, hfits]) fun hholds => ?_
  obtain ⟨-, h14, h12, -, hoffset, hlt⟩ :=
    fields_thumbBranch24 ((if_neg (by rw [hfits.mpr hholds]; decide)) : _ = Except.ok _)
  refine ⟨hlt, keepsOutside_of_bits [(12, 1), (14, 2)] (by decide) ?_, fun _ => ?_⟩
  · simp only [List.forall_mem_cons]
    exact ⟨h12, h14, List.forall_mem_nil _⟩
  · rw [decode_thumbBranch24]
    exact hoffset

theorem roundTrips_thumbBranch19 : Field.thumbBranch19.RoundTrips insn value := by
  have hfits : fitsSigned value 21 = true ↔ Field.thumbBranch19.Holds value :=
    fitsSigned_iff (by decide) (by decide)
  refine roundTrips_of_ite rfl (by rw [Bool.not_eq_false, hfits]) fun hholds => ?_
  obtain ⟨h27, h22, -, -, hoffset, hlt⟩ :=
    fields_thumbBranch19 ((if_neg (by rw [hfits.mpr hholds]; decide)) : _ = Except.ok _)
  refine ⟨hlt, keepsOutside_of_bits [(22, 4), (27, 5)] (by decide) ?_, fun _ => ?_⟩
  · simp only [List.forall_mem_cons]
    exact ⟨h22, h27, List.forall_mem_nil _⟩
  · rw [decode_thumbBranch19]
    exact hoffset

/-! #### Halves -/

theorem armMov_lt (hinsn : insn < 2 ^ 32) (imm : ℕ) : armMov insn imm < 2 ^ 32 := by
  refine Nat.or_lt_two_pow (Nat.or_lt_two_pow ?_ ?_) (Nat.and_lt_two_pow _ (by decide))
  · exact Nat.and_le_left.trans_lt hinsn
  · exact land_shiftLeft_lt _ (by decide)

theorem keepsOutside_armMov (insn imm : ℕ) :
    KeepsOutside [(0, 12), (16, 4)] 32 insn (armMov insn imm) := by
  refine keepsOutside_of_bits [(12, 4), (20, 12)] (by decide) ?_
  simp [armMov, not32, U32_MAX, bits_shiftLeft, Nat.shiftLeft_and_distrib]

theorem armImmediate_armMov (insn : ℕ) (himm : imm < 2 ^ 16) :
    armImmediate (armMov insn imm) = imm := by
  have hsplit : bits imm 12 4 * 2 ^ 12 + bits imm 0 12 = imm := by
    simp only [bits]
    omega
  refine Eq.trans ?_ hsplit
  simp [armImmediate, armMov, not32, U32_MAX, bits_shiftLeft, Nat.shiftLeft_and_distrib]

theorem halves_lt {hi lo : ℕ} (hhi : hi < 2 ^ 16) (hlo : lo < 2 ^ 16) :
    hi <<< 16 ||| lo < 2 ^ 32 := by
  refine Nat.or_lt_two_pow ?_ (by omega)
  rw [Nat.shiftLeft_eq]
  omega

theorem high_lt (hinsn : insn < 2 ^ 32) (mask : ℕ) : insn >>> 16 &&& mask < 2 ^ 16 := by
  refine Nat.and_le_left.trans_lt ?_
  rw [Nat.shiftRight_eq_div_pow]
  omega

theorem thumbMov_lt (hinsn : insn < 2 ^ 32) (imm : ℕ) : thumbMov insn imm < 2 ^ 32 := by
  refine halves_lt (Nat.or_lt_two_pow (Nat.or_lt_two_pow ?_ ?_) ?_)
    (Nat.or_lt_two_pow (Nat.or_lt_two_pow ?_ ?_) ?_)
  · exact high_lt hinsn _
  all_goals exact Nat.and_lt_two_pow _ (by decide)

theorem keepsOutside_thumbMov (insn imm : ℕ) :
    KeepsOutside [(0, 8), (12, 3), (16, 4), (26, 1)] 32 insn (thumbMov insn imm) := by
  refine keepsOutside_of_bits [(8, 4), (15, 1), (20, 6), (27, 5)] (by decide) ?_
  simp [thumbMov, not32, U32_MAX, bits_shiftLeft, bits_shiftLeft_low]

theorem thumbImmediate_thumbMov (insn : ℕ) (himm : imm < 2 ^ 16) :
    thumbImmediate (thumbMov insn imm) = imm := by
  have hsplit : bits imm 12 4 * 2 ^ 12 + bits imm 11 1 * 2 ^ 11 + bits imm 8 3 * 2 ^ 8 +
      bits imm 0 8 = imm := by
    simp only [bits]
    omega
  refine Eq.trans ?_ hsplit
  simp [thumbImmediate, thumbMov, not32, U32_MAX, bits_shiftLeft, bits_shiftLeft_low]

theorem roundTrips_of_ok (hencode : field.encode insn value = .ok word) (hholds : field.Holds value)
    (hlt : word < 2 ^ 32) (hkeeps : KeepsOutside field.runs (8 * field.bytes) insn word)
    (hdecode : field.decode word = field.share value) : field.RoundTrips insn value := by
  refine roundTrips_of_ite (c := False) (hencode.trans (if_neg id).symm) ?_
    fun _ => ⟨hlt, hkeeps, fun _ => hdecode⟩
  exact iff_of_true id hholds

theorem asU32_low (value : ℤ) : asU32 value &&& 0xffff = (value % 2 ^ 16).toNat := by
  rw [show 0xffff = 2 ^ 16 - 1 from rfl, Nat.and_two_pow_sub_one_eq_mod, asU32]
  omega

theorem asU32_high (value : ℤ) : asU32 value >>> 16 = (value / 2 ^ 16 % 2 ^ 16).toNat := by
  rw [Nat.shiftRight_eq_div_pow, asU32]
  omega

theorem roundTrips_movw (hinsn : insn < 2 ^ 32) : Field.movw.RoundTrips insn value := by
  refine roundTrips_of_ok rfl trivial (armMov_lt hinsn _) (keepsOutside_armMov insn _) ?_
  rw [Field.decode, decode_armMov, armImmediate_armMov insn (Nat.and_lt_two_pow _ (by decide)),
    asU32_low]
  rfl

theorem roundTrips_movt (hinsn : insn < 2 ^ 32) : Field.movt.RoundTrips insn value := by
  refine roundTrips_of_ok rfl trivial (armMov_lt hinsn _) (keepsOutside_armMov insn _) ?_
  rw [Field.decode, decode_armMov, armImmediate_armMov insn (by rw [asU32_high]; omega), asU32_high]
  rfl

theorem roundTrips_thumbMovw (hinsn : insn < 2 ^ 32) : Field.thumbMovw.RoundTrips insn value := by
  refine roundTrips_of_ok rfl trivial (thumbMov_lt hinsn _) (keepsOutside_thumbMov insn _) ?_
  rw [Field.decode, decode_thumbMov,
    thumbImmediate_thumbMov insn (Nat.and_lt_two_pow _ (by decide)), asU32_low]
  rfl

theorem roundTrips_thumbMovt (hinsn : insn < 2 ^ 32) : Field.thumbMovt.RoundTrips insn value := by
  refine roundTrips_of_ok rfl trivial (thumbMov_lt hinsn _) (keepsOutside_thumbMov insn _) ?_
  rw [Field.decode, decode_thumbMov, thumbImmediate_thumbMov insn (by rw [asU32_high]; omega),
    asU32_high]
  rfl

/-! #### Offsets with a sign -/

theorem withSign_natAbs (value : ℤ) : withSign value value.natAbs = value := by
  rw [withSign]
  split <;> omega

/-- The word of an `adr.w`. -/
def thumbAdrWord (insn imm : ℕ) (sub : Bool) : ℕ :=
  ((insn >>> 16 &&& 0xfb0f) ||| (if sub then 0x00a0 else 0) ||| (imm &&& 0x800) >>> 1) <<< 16 |||
    ((insn &&& 0x8f00) ||| (imm &&& 0x700) <<< 4 ||| (imm &&& 0xff))

theorem thumbAdrWord_lt (hinsn : insn < 2 ^ 32) (imm : ℕ) (sub : Bool) :
    thumbAdrWord insn imm sub < 2 ^ 32 := by
  refine halves_lt (Nat.or_lt_two_pow (Nat.or_lt_two_pow (high_lt hinsn _) ?_) ?_)
    (Nat.or_lt_two_pow (Nat.or_lt_two_pow ?_ ?_) ?_)
  · cases sub <;> decide
  · rw [Nat.shiftRight_and_distrib]
    exact Nat.and_lt_two_pow _ (by decide)
  · exact Nat.and_lt_two_pow _ (by decide)
  · exact land_shiftLeft_lt _ (by decide)
  · exact Nat.and_lt_two_pow _ (by decide)

theorem keepsOutside_thumbAdrWord (insn imm : ℕ) (sub : Bool) :
    KeepsOutside Field.thumbAdr.runs 32 insn (thumbAdrWord insn imm sub) := by
  refine keepsOutside_of_bits [(8, 4), (15, 1), (16, 4), (24, 2), (27, 5)] (by decide) ?_
  cases sub <;> simp [thumbAdrWord, bits_shiftLeft, bits_shiftLeft_low, Nat.shiftLeft_and_distrib]

theorem decode_thumbAdrWord (insn : ℕ) (himm : imm < 2 ^ 12) (sub : Bool) :
    Field.thumbAdr.decode (thumbAdrWord insn imm sub) = if sub then -(imm : ℤ) else imm := by
  have hsplit : bits imm 11 1 * 2 ^ 11 + bits imm 8 3 * 2 ^ 8 + bits imm 0 8 = imm := by
    simp only [bits]
    omega
  have hword : bits (thumbAdrWord insn imm sub) 26 1 * 2 ^ 11 +
      bits (thumbAdrWord insn imm sub) 12 3 * 2 ^ 8 +
        bits (thumbAdrWord insn imm sub) 0 8 = imm := by
    refine Eq.trans ?_ hsplit
    cases sub <;>
      simp [thumbAdrWord, bits_shiftLeft, bits_shiftLeft_low, Nat.shiftLeft_and_distrib]
  have hsign : bits (thumbAdrWord insn imm sub) 20 4 = if sub then 10 else 0 := by
    cases sub <;> simp [thumbAdrWord, bits_shiftLeft, Nat.shiftLeft_and_distrib]
  rw [decode_thumbAdr, hword, hsign]
  cases sub
  · rfl
  · rfl

theorem magnitude_eq {n : ℕ} (hn : n ≤ 32) (value : ℤ) : magnitude value n =
    if ¬value.natAbs < 2 ^ n then .error {} else .ok (value.natAbs, decide (value < 0)) := by
  have hpow : 2 ^ n ≤ 2 ^ 32 := Nat.pow_le_pow_right (by decide) hn
  rw [magnitude, Nat.shiftRight_eq_div_pow]
  by_cases hlt : value.natAbs < 2 ^ n
  · rw [if_neg (by rw [Nat.div_eq_of_lt hlt]; exact not_not.mpr rfl), if_neg (not_not.mpr hlt),
      Nat.mod_eq_of_lt (hlt.trans_le hpow)]
  · have hdiv := Nat.div_pos (Nat.le_of_not_lt hlt) (Nat.two_pow_pos n)
    rw [if_pos (by omega), if_pos hlt]

theorem roundTrips_thumbAdr (hinsn : insn < 2 ^ 32) : Field.thumbAdr.RoundTrips insn value := by
  have hencode : Field.thumbAdr.encode insn value = if ¬value.natAbs < 2 ^ 12 then .error {}
      else .ok (thumbAdrWord insn value.natAbs (decide (value < 0))) := by
    rw [Field.encode, magnitude_eq (by decide)]
    split <;> rfl
  refine roundTrips_of_ite hencode (not_not.trans Iff.rfl) fun hholds => ?_
  refine ⟨thumbAdrWord_lt hinsn _ _, keepsOutside_thumbAdrWord insn _ _, fun _ => ?_⟩
  rw [decode_thumbAdrWord insn hholds]
  refine Eq.trans ?_ (withSign_natAbs value)
  simp only [decide_eq_true_eq, withSign]

theorem upOffset_eq_withSign (value : ℤ)
    (hup : bits word 23 1 = if decide (value < 0) then 0 else 1) :
    upOffset word imm = withSign value imm := by
  rw [upOffset, withSign, hup]
  by_cases hneg : value < 0 <;> simp [hneg]

/-- The word of a `ldr.w` from a literal. -/
def literalWord (insn imm : ℕ) (negative : Bool) : ℕ :=
  ((insn >>> 16 &&& not32 0x0080) ||| if negative then 0 else 0x0080) <<< 16 |||
    ((insn &&& 0xf000) ||| imm)

theorem literalWord_spec (hinsn : insn < 2 ^ 32) (himm : imm < 2 ^ 12) (negative : Bool) :
    literalWord insn imm negative < 2 ^ 32 ∧
      KeepsOutside [(0, 12), (23, 1)] 32 insn (literalWord insn imm negative) ∧
        bits (literalWord insn imm negative) 0 12 = imm ∧
          bits (literalWord insn imm negative) 23 1 = if negative then 0 else 1 := by
  have hnone {l : ℕ} (w : ℕ) (hl : 12 ≤ l) : bits imm l w = 0 :=
    bits_eq_zero w (himm.trans_le (Nat.pow_le_pow_right (by decide) hl))
  refine ⟨?_, keepsOutside_of_bits [(12, 4), (16, 7), (24, 8)] (by decide) ?_, ?_, ?_⟩
  · refine halves_lt (Nat.or_lt_two_pow (high_lt hinsn _) ?_)
      (Nat.or_lt_two_pow (Nat.and_lt_two_pow _ (by decide)) (by omega))
    split <;> decide
  · cases negative <;>
      simp [literalWord, not32, U32_MAX, bits_shiftLeft, bits_shiftLeft_low, hnone]
  · cases negative <;> simp [literalWord, bits_shiftLeft_low, bits_zero_of_lt himm]
  · cases negative <;> simp [literalWord, not32, U32_MAX, bits_shiftLeft, hnone]

theorem roundTrips_thumbLdrLiteral (hinsn : insn < 2 ^ 32) :
    Field.thumbLdrLiteral.RoundTrips insn value := by
  have hencode : Field.thumbLdrLiteral.encode insn value = if ¬value.natAbs < 2 ^ 12 then .error {}
      else .ok (literalWord insn value.natAbs (decide (value < 0))) := by
    rw [Field.encode, magnitude_eq (by decide)]
    split <;> rfl
  refine roundTrips_of_ite hencode (not_not.trans Iff.rfl) fun hholds => ?_
  obtain ⟨hlt, hkeeps, himm, hup⟩ := literalWord_spec hinsn hholds (decide (value < 0))
  refine ⟨hlt, hkeeps, fun _ => ?_⟩
  rw [decode_thumbLdrLiteral, himm, upOffset_eq_withSign value hup, withSign_natAbs]
  rfl

/-! #### Groups -/

theorem splitSign_eq (value : ℤ) : splitSign value =
    if ¬value.natAbs < 2 ^ 32 then .error {} else .ok (value.natAbs, decide (value < 0)) := by
  rw [splitSign]
  simp only [Nat.not_lt]

theorem ite_bind_ite {α β : Type} {p q : Prop} [Decidable p] [Decidable q] {e : Overflow} {x : α}
    {f : α → Except Overflow β} {y : β} (h : f x = if q then .error e else .ok y) :
    ((if p then .error e else .ok x : Except Overflow α) >>= f) =
      if p ∨ q then .error e else .ok y := by
  by_cases hp : p
  · rw [if_pos hp, if_pos (.inl hp)]
    rfl
  · rw [if_neg hp]
    refine h.trans ?_
    simp only [hp, false_or]

/-- The word of a load or store. -/
def ldrWord (insn imm : ℕ) (negative : Bool) : ℕ :=
  (insn &&& 0xff7ff000) ||| (if negative then 0 else 0x00800000) ||| imm

theorem ldrWord_spec (insn : ℕ) (himm : imm < 2 ^ 12) (negative : Bool) :
    ldrWord insn imm negative < 2 ^ 32 ∧
      KeepsOutside [(0, 12), (23, 1)] 32 insn (ldrWord insn imm negative) ∧
        bits (ldrWord insn imm negative) 0 12 = imm ∧
          bits (ldrWord insn imm negative) 23 1 = if negative then 0 else 1 := by
  have hnone {l : ℕ} (w : ℕ) (hl : 12 ≤ l) : bits imm l w = 0 :=
    bits_eq_zero w (himm.trans_le (Nat.pow_le_pow_right (by decide) hl))
  refine ⟨?_, keepsOutside_of_bits [(12, 11), (24, 8)] (by decide) ?_, ?_, ?_⟩
  · refine Nat.or_lt_two_pow (Nat.or_lt_two_pow (Nat.and_lt_two_pow _ (by decide)) ?_) (by omega)
    split <;> decide
  · cases negative <;> simp [ldrWord, hnone]
  · cases negative <;> simp [ldrWord, bits_zero_of_lt himm]
  · cases negative <;> simp [ldrWord, hnone]

theorem roundTrips_ldrGroup (group : ℕ) : (Field.ldrGroup group).RoundTrips insn value := by
  have hencode : (Field.ldrGroup group).encode insn value =
      if ¬value.natAbs < 2 ^ 32 ∨ 0xfff < groupResidual value.natAbs group then .error {}
      else .ok (ldrWord insn (groupResidual value.natAbs group) (decide (value < 0))) := by
    rw [Field.encode, splitSign_eq]
    exact ite_bind_ite rfl
  refine roundTrips_of_ite hencode ?_ fun hholds => ?_
  · rw [not_or, Classical.not_not, Nat.not_lt]
    exact and_congr_right fun _ => Nat.lt_succ_iff.symm
  · obtain ⟨hlt, hkeeps, himm, hup⟩ := ldrWord_spec insn hholds.2 (decide (value < 0))
    refine ⟨hlt, hkeeps, fun _ => ?_⟩
    rw [decode_ldrGroup, himm, upOffset_eq_withSign value hup]
    rfl

/-- The word of a load or store of a halfword or of two words. -/
def ldrsWord (insn imm : ℕ) (negative : Bool) : ℕ :=
  (insn &&& 0xff7ff0f0) ||| (if negative then 0 else 0x00800000) ||| (imm &&& 0xf0) <<< 4 |||
    (imm &&& 0xf)

theorem ldrsWord_spec (insn : ℕ) (himm : imm < 2 ^ 8) (negative : Bool) :
    ldrsWord insn imm negative < 2 ^ 32 ∧
      KeepsOutside [(0, 4), (8, 4), (23, 1)] 32 insn (ldrsWord insn imm negative) ∧
        bits (ldrsWord insn imm negative) 8 4 * 2 ^ 4 +
          bits (ldrsWord insn imm negative) 0 4 = imm ∧
          bits (ldrsWord insn imm negative) 23 1 = if negative then 0 else 1 := by
  refine ⟨?_, keepsOutside_of_bits [(4, 4), (12, 11), (24, 8)] (by decide) ?_, ?_, ?_⟩
  · refine Nat.or_lt_two_pow (Nat.or_lt_two_pow (Nat.or_lt_two_pow
      (Nat.and_lt_two_pow _ (by decide)) ?_) (land_shiftLeft_lt _ (by decide)))
      (Nat.and_lt_two_pow _ (by decide))
    split <;> decide
  · cases negative <;> simp [ldrsWord, bits_shiftLeft, Nat.shiftLeft_and_distrib]
  · have hsplit : bits imm 4 4 * 2 ^ 4 + bits imm 0 4 = imm := by
      simp only [bits]
      omega
    refine Eq.trans ?_ hsplit
    cases negative <;> simp [ldrsWord, bits_shiftLeft, Nat.shiftLeft_and_distrib]
  · cases negative <;> simp [ldrsWord, bits_shiftLeft, Nat.shiftLeft_and_distrib]

theorem roundTrips_ldrsGroup (group : ℕ) : (Field.ldrsGroup group).RoundTrips insn value := by
  have hencode : (Field.ldrsGroup group).encode insn value =
      if ¬value.natAbs < 2 ^ 32 ∨ 0xff < groupResidual value.natAbs group then .error {}
      else .ok (ldrsWord insn (groupResidual value.natAbs group) (decide (value < 0))) := by
    rw [Field.encode, splitSign_eq]
    exact ite_bind_ite rfl
  refine roundTrips_of_ite hencode ?_ fun hholds => ?_
  · rw [not_or, Classical.not_not, Nat.not_lt]
    exact and_congr_right fun _ => Nat.lt_succ_iff.symm
  · obtain ⟨hlt, hkeeps, himm, hup⟩ := ldrsWord_spec insn hholds.2 (decide (value < 0))
    refine ⟨hlt, hkeeps, fun _ => ?_⟩
    rw [decode_ldrsGroup, himm, upOffset_eq_withSign value hup]
    rfl

/-- The word of an addition or subtraction. -/
def aluWord (insn imm rotate : ℕ) (negative : Bool) : ℕ :=
  (insn &&& 0xff3ff000) ||| (if negative then 0x00400000 else 0x00800000) ||| rotate <<< 8 ||| imm

theorem aluWord_spec (insn : ℕ) {rotate : ℕ} (himm : imm < 2 ^ 8) (hrotate : rotate < 2 ^ 4)
    (negative : Bool) : aluWord insn imm rotate negative < 2 ^ 32 ∧
      KeepsOutside [(0, 12), (22, 2)] 32 insn (aluWord insn imm rotate negative) ∧
        bits (aluWord insn imm rotate negative) 0 8 = imm ∧
          bits (aluWord insn imm rotate negative) 8 4 = rotate ∧
            bits (aluWord insn imm rotate negative) 22 1 = if negative then 1 else 0 := by
  have hnone {l : ℕ} (w : ℕ) (hl : 8 ≤ l) : bits imm l w = 0 :=
    bits_eq_zero w (himm.trans_le (Nat.pow_le_pow_right (by decide) hl))
  have hnone' {l : ℕ} (w : ℕ) (hl : 4 ≤ l) : bits rotate l w = 0 :=
    bits_eq_zero w (hrotate.trans_le (Nat.pow_le_pow_right (by decide) hl))
  refine ⟨?_, keepsOutside_of_bits [(12, 10), (24, 8)] (by decide) ?_, ?_, ?_, ?_⟩
  · refine Nat.or_lt_two_pow (Nat.or_lt_two_pow (Nat.or_lt_two_pow
      (Nat.and_lt_two_pow _ (by decide)) ?_) ?_) (by omega)
    · split <;> decide
    · rw [Nat.shiftLeft_eq]
      omega
  · cases negative <;> simp [aluWord, bits_shiftLeft, hnone, hnone']
  · cases negative <;> simp [aluWord, bits_shiftLeft_low, bits_zero_of_lt himm]
  · cases negative <;> simp [aluWord, bits_shiftLeft, hnone, bits_zero_of_lt hrotate]
  · cases negative <;> simp [aluWord, bits_shiftLeft, hnone, hnone']

theorem roundTrips_aluGroup (group : ℕ) (checked : Bool) :
    (Field.aluGroup group checked).RoundTrips insn value := by
  have hencode : (Field.aluGroup group checked).encode insn value =
      if ¬value.natAbs < 2 ^ 32 ∨
        checked = true ∧ nextResidual (groupResidual value.natAbs group) ≠ 0 then .error {}
      else .ok (aluWord insn (groupImmediate (groupResidual value.natAbs group)).1
        (groupImmediate (groupResidual value.natAbs group)).2 (decide (value < 0))) := by
    rw [Field.encode, splitSign_eq]
    exact ite_bind_ite rfl
  refine roundTrips_of_ite hencode ?_ fun hholds => ?_
  · rw [not_or, Classical.not_not, not_and, Classical.not_not, ← groupResidual_succ]
    rfl
  · obtain ⟨himm, hrotate⟩ := groupImmediate_lt (groupResidual value.natAbs group)
    obtain ⟨hlt, hkeeps, himm, hrotate, hsub⟩ := aluWord_spec insn himm hrotate (decide (value < 0))
    refine ⟨hlt, hkeeps, fun _ => ?_⟩
    rw [decode_aluGroup, himm, hrotate, hsub]
    by_cases hneg : value < 0 <;> simp [hneg, Field.share, withSign, groupShare]

/-! #### Unsigned offsets -/

theorem roundTrips_thumbPc8 : Field.thumbPc8.RoundTrips insn value := by
  refine roundTrips_of_ite rfl ?_ fun _ => ⟨?_, ?_, fun hne => absurd rfl hne⟩
  · rw [Field.Holds, Int.dvd_iff_emod_eq_zero]
    omega
  · exact Nat.or_lt_two_pow (Nat.and_lt_two_pow _ (by decide)) (Nat.and_lt_two_pow _ (by decide))
  · exact keepsOutside_of_bits [(8, 8)] (by decide) (by simp)

theorem roundTrips_thumbJump6 (hinsn : insn < 2 ^ 32) : Field.thumbJump6.RoundTrips insn value := by
  refine roundTrips_of_ite rfl ?_ fun hholds => ⟨?_, ?_, fun _ => ?_⟩
  · rw [Field.Holds, Int.dvd_iff_emod_eq_zero]
    omega
  · exact Nat.or_lt_two_pow (Nat.or_lt_two_pow (Nat.and_le_left.trans_lt hinsn)
      (Nat.and_lt_two_pow _ (by decide))) (Nat.and_lt_two_pow _ (by decide))
  · refine keepsOutside_of_bits [(0, 3), (8, 1), (10, 6)] (by decide) ?_
    simp [not32, U32_MAX]
  · obtain ⟨heven, hlow, hhigh⟩ := hholds
    have hnine : bits (asU32 value <<< 3 % 2 ^ 32) 9 1 = bits (asU32 value) 6 1 := by
      rw [bits_mod _ (by decide), bits_shiftLeft _ _ (by decide)]
    have hthree : bits (asU32 value <<< 2 % 2 ^ 32) 3 5 = bits (asU32 value) 1 5 := by
      rw [bits_mod _ (by decide), bits_shiftLeft _ _ (by decide)]
    have hvalue :
        ((bits (asU32 value) 6 1 * 2 ^ 6 + bits (asU32 value) 1 5 * 2 : ℕ) : ℤ) = value := by
      rw [bits, bits, asU32]
      omega
    rw [decode_thumbJump6]
    refine Eq.trans ?_ hvalue
    congr 1
    simp only [bits_or, bits_and, hnine, hthree]
    simp [not32, U32_MAX]

end Fields

/-! ### All fields -/

/-- **Every field holds what it was given, or reports an overflow.** -/
theorem Field.encode_roundTrips (field : Field) {insn : ℕ} (value : ℤ) (hinsn : insn < 2 ^ 32) :
    field.RoundTrips insn value := by
  cases field with
  | branch24 => exact roundTrips_branch24
  | thumbBranch24 => exact roundTrips_thumbBranch24
  | thumbBranch19 => exact roundTrips_thumbBranch19
  | thumbBranch11 => exact roundTrips_thumbBranch11
  | thumbBranch8 => exact roundTrips_thumbBranch8
  | movw => exact roundTrips_movw hinsn
  | movt => exact roundTrips_movt hinsn
  | thumbMovw => exact roundTrips_thumbMovw hinsn
  | thumbMovt => exact roundTrips_thumbMovt hinsn
  | prel31 => exact roundTrips_prel31
  | thumbAdr => exact roundTrips_thumbAdr hinsn
  | thumbLdrLiteral => exact roundTrips_thumbLdrLiteral hinsn
  | ldrGroup group => exact roundTrips_ldrGroup group
  | ldrsGroup group => exact roundTrips_ldrsGroup group
  | aluGroup group checked => exact roundTrips_aluGroup group checked
  | thumbPc8 => exact roundTrips_thumbPc8
  | thumbJump6 => exact roundTrips_thumbJump6 hinsn

/-! ### Chains -/

section Chain

variable {insns words : ℕ → ℕ} {value : ℤ} {n : ℕ}

/-- Instructions that take the groups of a value, the first `n` of them. -/
def Chain (insns words : ℕ → ℕ) (value : ℤ) (n : ℕ) : Prop :=
  ∀ group < n, ∃ checked,
    (Field.aluGroup group checked).encode (insns group) value = .ok (words group)

/-- What the instructions of a chain add. -/
def chainSum (words : ℕ → ℕ) (n : ℕ) : ℤ :=
  ((List.range n).map fun group => (Field.aluGroup group false).decode (words group)).sum

theorem decode_chain (h : Chain insns words value n) {group : ℕ} (hgroup : group < n) :
    (Field.aluGroup group false).decode (words group) =
      withSign value (groupShare (groupResidual value.natAbs group)) := by
  obtain ⟨checked, hencode⟩ := h group hgroup
  obtain ⟨-, -, hdecode⟩ := (roundTrips_aluGroup group checked).1 _ hencode
  exact hdecode (fun hne => by cases hne)

theorem withSign_add (value : ℤ) (m n : ℕ) :
    withSign value m + withSign value n = withSign value (m + n) := by
  simp only [withSign]
  split <;> omega

theorem withSign_sum (value : ℤ) (l : List ℕ) :
    (l.map (withSign value)).sum = withSign value l.sum := by
  induction l with
  | nil => simp [withSign]
  | cons m l ih => rw [List.map_cons, List.sum_cons, List.sum_cons, ih, withSign_add]

/-- **A chain and what it leaves.** -/
theorem chainSum_add (h : Chain insns words value n) (hvalue : value.natAbs < 2 ^ 32) :
    chainSum words n + withSign value (groupResidual value.natAbs n) = value := by
  have hmap : (List.range n).map (fun group => (Field.aluGroup group false).decode (words group)) =
      ((List.range n).map fun group => groupShare (groupResidual value.natAbs group)).map
        (withSign value) := by
    rw [List.map_map]
    exact List.map_congr_left fun group hgroup => decode_chain h (List.mem_range.mp hgroup)
  rw [chainSum, hmap, withSign_sum, withSign_add, sum_groupShare hvalue, withSign_natAbs]

theorem natAbs_withSign (value : ℤ) (m : ℕ) : (withSign value m).natAbs = m := by
  rw [withSign]
  split <;> omega

/-- **A chain that ends in a load.** -/
theorem chainSum_ldr (h : Chain insns words value n) {insn word : ℕ}
    (hldr : (Field.ldrGroup n).encode insn value = .ok word) :
    chainSum words n + (Field.ldrGroup n).decode word = value := by
  obtain ⟨hword, herror⟩ := @roundTrips_ldrGroup insn value n
  have hholds : (Field.ldrGroup n).Holds value := by
    by_contra hout
    rw [herror.mpr hout] at hldr
    cases hldr
  rw [(hword word hldr).2.2 fun hne => by cases hne]
  exact chainSum_add h hholds.1

end Chain

/-- **Fields round-trip and groups decompose (proved).** -/
theorem Field.roundTrips_and_groups (field : Field) (insn : ℕ) (value : ℤ) (hinsn : insn < 2 ^ 32) :
    field.RoundTrips insn value ∧
    (∀ n insns words, Chain insns words value n → value.natAbs < 2 ^ 32 →
      chainSum words n + withSign value (groupResidual value.natAbs n) = value ∧
        ∀ group < n, IsRotated ((Field.aluGroup group false).decode (words group)).natAbs) ∧
    (∀ group, value.natAbs < 2 ^ 32 → ((Field.aluGroup group true).encode insn value = .error {} ↔
      groupResidual value.natAbs (group + 1) ≠ 0)) ∧
    ∀ insns words ldr word, Chain insns words value 2 →
      (Field.ldrGroup 2).encode ldr value = .ok word →
        (Field.aluGroup 0 false).decode (words 0) + (Field.aluGroup 1 false).decode (words 1) +
          (Field.ldrGroup 2).decode word = value := by
  refine ⟨field.encode_roundTrips value hinsn, fun n insns words h hvalue => ⟨?_, ?_⟩, ?_, ?_⟩
  · exact chainSum_add h hvalue
  · intro group hgroup
    rw [decode_chain h hgroup, natAbs_withSign]
    exact isRotated_groupShare _
  · intro group hvalue
    rw [(roundTrips_aluGroup group true).2]
    simp only [Field.Holds, hvalue, true_and, forall_const]
  · intro insns words ldr word h hldr
    have hsum := chainSum_ldr h hldr
    have htwo : chainSum words 2 =
        (Field.aluGroup 0 false).decode (words 0) + (Field.aluGroup 1 false).decode (words 1) := by
      simp [chainSum, List.range_succ]
    rwa [htwo] at hsum

/-- A branch backwards. -/
theorem Field.branch24_roundTrips : Field.branch24.RoundTrips 0xebfffffe (-0x1234) :=
  (Field.roundTrips_and_groups .branch24 0xebfffffe (-0x1234) (by decide)).1

end Qld.Arch.Arm
