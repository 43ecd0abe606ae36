import Qld.Arch.Aarch64
import Qld.Lib.Arm
import Qld.Lib.Except

/-!
# Arm instruction encoding

Instructions are natural numbers below `2 ^ 32`; a 32-bit Thumb instruction holds its first
halfword in its upper half.  Values to encode are `i64`s: integers.

* `Field`, `Field.read`, `Field.write` — a relocatable field of one instruction;
* `Field.decode`, `Field.encode` — the addend it keeps, and a value packed into it;
* `groupResidual`, `groupImmediate` — the groups of a value, eight bits each;
* `fields_thumbBranch24`, `fields_thumbBranch19` — the fields of an encoded branch, and
  the offset it holds.
-/

namespace Qld.Arch.Arm

open Qld.Lib
open Qld.Arch.Aarch64 (Overflow U32_MAX asU32 fitsSigned fitsSigned_iff)

/-! ### Integers -/

/-- `!value` of a `u32`. -/
def not32 (value : ℕ) : ℕ := U32_MAX - value

/-! ### Immediates -/

/-- `value` sign-extended from `bits` bits: shifted to the top of an `i32`, and back. -/
def signExtendBits (value bits : ℕ) : ℤ :=
  let shift := 32 - bits
  (((value <<< shift : ℕ) + 2 ^ 31 : ℤ) % 2 ^ 32 - 2 ^ 31) >>> shift

/-- The magnitude of `value`, which must fit `bits` bits, and whether it is negative. -/
def magnitude (value : ℤ) (bits : ℕ) : Except Overflow (ℕ × Bool) :=
  if value.natAbs >>> bits ≠ 0 then .error {} else .ok (value.natAbs % 2 ^ 32, decide (value < 0))

def armMov (insn imm : ℕ) : ℕ :=
  (insn &&& not32 0x000f0fff) ||| (imm &&& 0xf000) <<< 4 ||| (imm &&& 0x0fff)

def thumbMov (insn imm : ℕ) : ℕ :=
  let hi := (insn >>> 16 &&& not32 0x040f) ||| (imm >>> 1 &&& 0x0400) ||| (imm >>> 12 &&& 0x000f)
  let lo := (insn &&& not32 0x70ff &&& 0xffff) ||| (imm <<< 4 &&& 0x7000) ||| (imm &&& 0x00ff)
  hi <<< 16 ||| lo

/-- The magnitude of `value` and whether it is negative. -/
def splitSign (value : ℤ) : Except Overflow (ℕ × Bool) :=
  if 2 ^ 32 ≤ value.natAbs then .error {} else .ok (value.natAbs, decide (value < 0))

/-- `u32::leading_zeros`. -/
def leadingZeros32 (value : ℕ) : ℕ := if value = 0 then 32 else 31 - value.log2

/-- `u32::rotate_right`. -/
def rotateRight32 (value n : ℕ) : ℕ :=
  (value >>> (n % 32) ||| value <<< (32 - n % 32)) % 2 ^ 32

/-- What is left of `value` once its most significant group is taken. -/
def nextResidual (value : ℕ) : ℕ :=
  -- The group starts at an even bit position.
  let lz := leadingZeros32 value / 2 * 2
  if 24 ≤ lz then 0 else value &&& 0x00ffffff >>> lz

/-- What is left of `value` after the `group` groups before it took their share. -/
def groupResidual (value group : ℕ) : ℕ := nextResidual^[group] value

/-- The most significant group of `value`: eight bits and a rotation (in units of two bits). -/
def groupImmediate (value : ℕ) : ℕ × ℕ :=
  let lz := leadingZeros32 value / 2 * 2
  if 24 ≤ lz then (value &&& 0xff, 0) else (value >>> (24 - lz) &&& 0xff, (lz + 8) / 2)

/-! ### Fields -/

/-- A relocatable field of one instruction (or data word). -/
inductive Field where
  | branch24
  | thumbBranch24
  | thumbBranch19
  | thumbBranch11
  | thumbBranch8
  | movw
  | movt
  | thumbMovw
  | thumbMovt
  | prel31
  | thumbAdr
  | thumbLdrLiteral
  | ldrGroup (group : ℕ)
  | ldrsGroup (group : ℕ)
  | aluGroup (group : ℕ) (checked : Bool)
  | thumbPc8
  | thumbJump6
  deriving DecidableEq, Repr

/-- The size of the field's instruction in bytes. -/
def Field.bytes : Field → ℕ
  | .thumbBranch11 | .thumbBranch8 | .thumbPc8 | .thumbJump6 => 2
  | _ => 4

/-- The addend that is kept in instruction `insn`. -/
def Field.decode (field : Field) (insn : ℕ) : ℤ :=
  let hi := insn >>> 16
  let lo := insn &&& 0xffff
  match field with
  | .branch24 => signExtendBits ((insn &&& 0x00ffffff) <<< 2) 26
  | .thumbBranch24 =>
    let s := hi >>> 10 &&& 1
    let i1 := not32 (lo >>> 13 ^^^ s) &&& 1
    let i2 := not32 (lo >>> 11 ^^^ s) &&& 1
    signExtendBits (s <<< 24 ||| i1 <<< 23 ||| i2 <<< 22 ||| (hi &&& 0x3ff) <<< 12 |||
      (lo &&& 0x7ff) <<< 1) 25
  | .thumbBranch19 =>
    signExtendBits ((hi >>> 10 &&& 1) <<< 20 ||| (lo >>> 11 &&& 1) <<< 19 |||
      (lo >>> 13 &&& 1) <<< 18 ||| (hi &&& 0x3f) <<< 12 ||| (lo &&& 0x7ff) <<< 1) 21
  | .thumbBranch11 => signExtendBits ((insn &&& 0x7ff) <<< 1) 12
  | .thumbBranch8 => signExtendBits ((insn &&& 0xff) <<< 1) 9
  | .movw | .movt => signExtendBits ((insn >>> 4 &&& 0xf000) ||| (insn &&& 0x0fff)) 16
  | .thumbMovw | .thumbMovt =>
    signExtendBits ((hi &&& 0xf) <<< 12 ||| (hi &&& 0x400) <<< 1 ||| (lo &&& 0x7000) >>> 4 |||
      (lo &&& 0xff)) 16
  | .prel31 => signExtendBits (insn &&& 0x7fffffff) 31
  | .thumbAdr =>
    let imm : ℕ := (hi &&& 0x400) <<< 1 ||| (lo &&& 0x7000) >>> 4 ||| (lo &&& 0xff)
    if hi &&& 0xf0 ≠ 0 then -imm else imm
  | .thumbLdrLiteral =>
    let imm : ℕ := lo &&& 0xfff
    if hi &&& 0x80 ≠ 0 then imm else -imm
  | .ldrGroup _ =>
    let imm : ℕ := insn &&& 0xfff
    if insn &&& 0x00800000 ≠ 0 then imm else -imm
  | .ldrsGroup _ =>
    let imm : ℕ := (insn >>> 4 &&& 0xf0) ||| (insn &&& 0xf)
    if insn &&& 0x00800000 ≠ 0 then imm else -imm
  -- The signed addend of an unsigned field: `imm8 = 0xff` is the bias of -4.
  | .thumbPc8 => (((insn &&& 0xff) <<< 2) + 4 &&& 0x3ff : ℕ) - 4
  | .thumbJump6 => ((insn >>> 9 &&& 1) <<< 6 ||| (insn >>> 3 &&& 0x1f) <<< 1 : ℕ)
  | .aluGroup _ _ =>
    let rotate := (insn >>> 8 &&& 0xf) * 2
    let imm : ℕ := rotateRight32 (insn &&& 0xff) rotate
    if insn &&& 0x00400000 ≠ 0 then -imm else imm

/-- Packs `value` into instruction `insn`. -/
def Field.encode (field : Field) (insn : ℕ) (value : ℤ) : Except Overflow ℕ :=
  let v := asU32 value
  match field with
  | .branch24 =>
    if fitsSigned value 26 = false then .error {}
    else .ok ((insn &&& 0xff000000) ||| (v >>> 2 &&& 0x00ffffff))
  | .thumbBranch24 =>
    if fitsSigned value 25 = false then .error {}
    else
      let hi := 0xf000 ||| (v >>> 14 &&& 0x0400) ||| (v >>> 12 &&& 0x03ff)
      let lo := (insn &&& 0xffff &&& 0xd000) |||
        ((not32 (v >>> 10) ^^^ v >>> 11) &&& 0x2000) |||
        ((not32 (v >>> 11) ^^^ v >>> 13) &&& 0x0800) |||
        (v >>> 1 &&& 0x07ff)
      .ok (hi <<< 16 ||| lo)
  | .thumbBranch19 =>
    if fitsSigned value 21 = false then .error {}
    else
      let hi := (insn >>> 16 &&& 0xfbc0) ||| (v >>> 10 &&& 0x0400) ||| (v >>> 12 &&& 0x003f)
      let lo := 0x8000 ||| (v >>> 8 &&& 0x0800) ||| (v >>> 5 &&& 0x2000) ||| (v >>> 1 &&& 0x07ff)
      .ok (hi <<< 16 ||| lo)
  | .thumbBranch11 =>
    if fitsSigned value 12 = false then .error {}
    else .ok ((insn &&& 0xf800) ||| (v >>> 1 &&& 0x07ff))
  | .thumbBranch8 =>
    if fitsSigned value 9 = false then .error {}
    else .ok ((insn &&& 0xff00) ||| (v >>> 1 &&& 0x00ff))
  | .movw => .ok (armMov insn (v &&& 0xffff))
  | .movt => .ok (armMov insn (v >>> 16))
  | .thumbMovw => .ok (thumbMov insn (v &&& 0xffff))
  | .thumbMovt => .ok (thumbMov insn (v >>> 16))
  | .prel31 =>
    if fitsSigned value 31 = false then .error {}
    else .ok ((insn &&& 0x80000000) ||| (v &&& 0x7fffffff))
  | .thumbAdr => do
    let (imm, sub) ← magnitude value 12
    let hi := (insn >>> 16 &&& 0xfb0f) ||| (if sub then 0x00a0 else 0) ||| (imm &&& 0x800) >>> 1
    let lo := (insn &&& 0x8f00) ||| (imm &&& 0x700) <<< 4 ||| (imm &&& 0xff)
    .ok (hi <<< 16 ||| lo)
  | .thumbLdrLiteral => do
    let (imm, negative) ← magnitude value 12
    let hi := (insn >>> 16 &&& not32 0x0080) ||| if negative then 0 else 0x0080
    let lo := (insn &&& 0xf000) ||| imm
    .ok (hi <<< 16 ||| lo)
  | .ldrGroup group => do
    let (magnitude, negative) ← splitSign value
    let imm := groupResidual magnitude group
    if 0xfff < imm then .error {}
    else
      let up := if negative then 0 else 0x00800000
      .ok ((insn &&& 0xff7ff000) ||| up ||| imm)
  | .ldrsGroup group => do
    let (magnitude, negative) ← splitSign value
    let imm := groupResidual magnitude group
    if 0xff < imm then .error {}
    else
      let up := if negative then 0 else 0x00800000
      .ok ((insn &&& 0xff7ff0f0) ||| up ||| (imm &&& 0xf0) <<< 4 ||| (imm &&& 0xf))
  | .thumbPc8 =>
    if ¬(0 ≤ value ∧ value ≤ 1020) ∨ value % 4 ≠ 0 then .error {}
    else .ok ((insn &&& 0xff00) ||| (v >>> 2 &&& 0xff))
  | .thumbJump6 =>
    if ¬(0 ≤ value ∧ value ≤ 126) ∨ value % 2 ≠ 0 then .error {}
    else .ok ((insn &&& not32 0x02f8) ||| (v <<< 3 % 2 ^ 32 &&& 0x0200) |||
      (v <<< 2 % 2 ^ 32 &&& 0x00f8))
  | .aluGroup group checked => do
    let (magnitude, negative) ← splitSign value
    let residual := groupResidual magnitude group
    let (imm, rotate) := groupImmediate residual
    if checked = true ∧ nextResidual residual ≠ 0 then .error {}
    else
      let opcode := if negative then 0x00400000 else 0x00800000
      .ok ((insn &&& 0xff3ff000) ||| opcode ||| rotate <<< 8 ||| imm)

/-! ### The fields of an encoded branch -/

open Qld.Lib.A64 (signExtend)
open Qld.Lib.Arm

theorem asU32_lt (value : ℤ) : asU32 value < 2 ^ 32 := by
  rw [asU32]
  omega

theorem bits_not32 {x : ℕ} (hx : x < 2 ^ 32) {l : ℕ} (hl : l < 32) :
    bits (not32 x) l 1 = 1 - bits x l 1 := by
  have hbit := Nat.testBit_two_pow_sub_succ hx l
  rw [not32, U32_MAX, bits, bits, show 2 ^ 32 - 1 - x = 2 ^ 32 - (x + 1) by omega,
    ← Nat.shiftRight_eq_div_pow, ← Nat.shiftRight_eq_div_pow, Nat.pow_one]
  simp only [Nat.testBit, Nat.one_and_eq_mod_two] at hbit
  rcases Nat.mod_two_eq_zero_or_one (x >>> l) with hzero | hone
  · simp [hzero, hl] at hbit ⊢
    exact hbit
  · simp [hone, hl] at hbit ⊢
    exact hbit

variable {value : ℤ}

theorem signExtend_offset26 (h : fitsSigned value 26 = true) :
    signExtend 26 (bits (asU32 value) 2 24 * 4) = value / 4 * 4 := by
  obtain ⟨hlo, hhi⟩ := (fitsSigned_iff (by decide) (by decide)).mp h
  rw [signExtend, bits, asU32]
  split <;> omega

theorem signExtend_offset24 (h : fitsSigned value 25 = true) :
    signExtend 25 (bits (asU32 value) 24 1 * 2 ^ 24 + bits (asU32 value) 23 1 * 2 ^ 23 +
      bits (asU32 value) 22 1 * 2 ^ 22 + bits (asU32 value) 12 10 * 2 ^ 12 +
      bits (asU32 value) 1 11 * 2) = value / 2 * 2 := by
  obtain ⟨hlo, hhi⟩ := (fitsSigned_iff (by decide) (by decide)).mp h
  have hsum : bits (asU32 value) 24 1 * 2 ^ 24 + bits (asU32 value) 23 1 * 2 ^ 23 +
      bits (asU32 value) 22 1 * 2 ^ 22 + bits (asU32 value) 12 10 * 2 ^ 12 +
      bits (asU32 value) 1 11 * 2 = asU32 value % 2 ^ 25 / 2 * 2 := by
    rw [mod_bits _ 24 1, mod_bits _ 23 1, mod_bits _ 22 1, mod_bits _ 12 10, mod_bits _ 1 11]
    omega
  rw [hsum, signExtend, asU32]
  split <;> omega

theorem signExtend_offset19 (h : fitsSigned value 21 = true) :
    signExtend 21 (bits (asU32 value) 20 1 * 2 ^ 20 + bits (asU32 value) 19 1 * 2 ^ 19 +
      bits (asU32 value) 18 1 * 2 ^ 18 + bits (asU32 value) 12 6 * 2 ^ 12 +
      bits (asU32 value) 1 11 * 2) = value / 2 * 2 := by
  obtain ⟨hlo, hhi⟩ := (fitsSigned_iff (by decide) (by decide)).mp h
  have hsum : bits (asU32 value) 20 1 * 2 ^ 20 + bits (asU32 value) 19 1 * 2 ^ 19 +
      bits (asU32 value) 18 1 * 2 ^ 18 + bits (asU32 value) 12 6 * 2 ^ 12 +
      bits (asU32 value) 1 11 * 2 = asU32 value % 2 ^ 21 / 2 * 2 := by
    rw [mod_bits _ 20 1, mod_bits _ 19 1, mod_bits _ 18 1, mod_bits _ 12 6, mod_bits _ 1 11]
    omega
  rw [hsum, signExtend, asU32]
  split <;> omega

theorem inverted_bit {b : ℕ} (s : ℕ) (hb : b < 2) : ((1 - b + s) % 2 + s + 1) % 2 = b := by
  omega

/-- **What a Thumb branch keeps and holds.** -/
theorem fields_thumbBranch24 {insn word : ℕ} (h : Field.thumbBranch24.encode insn value = .ok word)
    :
    bits word 27 5 = 0x1e ∧ bits word 14 2 = bits insn 14 2 ∧ bits word 12 1 = bits insn 12 1 ∧
      bits word 0 1 = bits (asU32 value) 1 1 ∧ thumbOffset24 word = value / 2 * 2 ∧
      word < 2 ^ 32 := by
  obtain ⟨hfits, h⟩ := ite_error_eq_ok.mp h
  obtain rfl := Except.ok.inj h
  have hlt := asU32_lt value
  refine ⟨by simp [bits_shiftLeft], by simp [bits_shiftLeft_low], by simp [bits_shiftLeft_low],
    by simp [bits_shiftLeft_low], ?_, ?_⟩
  · have h13 : asU32 value >>> 10 < 2 ^ 32 := by
      rw [Nat.shiftRight_eq_div_pow]; omega
    have h11 : asU32 value >>> 11 < 2 ^ 32 := by
      rw [Nat.shiftRight_eq_div_pow]; omega
    have hbit23 := inverted_bit (bits (asU32 value) 24 1) (bits_lt_two (asU32 value) 23)
    have hbit22 := inverted_bit (bits (asU32 value) 24 1) (bits_lt_two (asU32 value) 22)
    rw [← signExtend_offset24 (Bool.eq_true_of_not_eq_false hfits), thumbOffset24]
    simp [bits_shiftLeft_low, bits_shiftLeft, bits_not32 h13, bits_not32 h11, hbit23, hbit22]
  · refine Nat.or_lt_two_pow ?_ ?_
    · rw [Nat.shiftLeft_eq]
      have hhi : 0xf000 ||| (asU32 value >>> 14 &&& 0x0400) ||| (asU32 value >>> 12 &&& 0x03ff)
          < 2 ^ 16 :=
        Nat.or_lt_two_pow (Nat.or_lt_two_pow (by decide) (Nat.and_le_right.trans_lt (by decide)))
          (Nat.and_le_right.trans_lt (by decide))
      omega
    · refine Nat.or_lt_two_pow (Nat.or_lt_two_pow (Nat.or_lt_two_pow ?_ ?_) ?_) ?_ <;>
        exact Nat.and_le_right.trans_lt (by decide)

/-- **What a conditional Thumb branch keeps and holds.** -/
theorem fields_thumbBranch19 {insn word : ℕ} (h : Field.thumbBranch19.encode insn value = .ok word)
    :
    bits word 27 5 = bits insn 27 5 ∧ bits word 22 4 = bits insn 22 4 ∧ bits word 14 2 = 2 ∧
      bits word 12 1 = 0 ∧ thumbOffset19 word = value / 2 * 2 ∧ word < 2 ^ 32 := by
  obtain ⟨hfits, h⟩ := ite_error_eq_ok.mp h
  obtain rfl := Except.ok.inj h
  refine ⟨by simp [bits_shiftLeft], by simp [bits_shiftLeft], by simp [bits_shiftLeft_low],
    by simp [bits_shiftLeft_low], ?_, ?_⟩
  · rw [← signExtend_offset19 (Bool.eq_true_of_not_eq_false hfits), thumbOffset19]
    simp [bits_shiftLeft_low, bits_shiftLeft]
  · refine Nat.or_lt_two_pow ?_ ?_
    · rw [Nat.shiftLeft_eq]
      have hhi : (insn >>> 16 &&& 0xfbc0) ||| (asU32 value >>> 10 &&& 0x0400) |||
          (asU32 value >>> 12 &&& 0x003f) < 2 ^ 16 := by
        refine Nat.or_lt_two_pow (Nat.or_lt_two_pow ?_ ?_) ?_ <;>
          exact Nat.and_le_right.trans_lt (by decide)
      omega
    · refine Nat.or_lt_two_pow (Nat.or_lt_two_pow (Nat.or_lt_two_pow (by decide) ?_) ?_) ?_ <;>
        exact Nat.and_le_right.trans_lt (by decide)

end Qld.Arch.Arm
