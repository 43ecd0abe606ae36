import Qld.Arch.Ppc64
import Qld.Lib.Except
import Qld.Lib.Ppc64

/-!
# Fields of PowerPC64 instructions, read back

* `Field.runs`, `Field.Reads`, `Field.Holds` — the bits of a checked field, what the architecture
  makes of them, and the values it can hold;
* `ha_lo` — the adjusted high part and the signed low part add up;
* `Field.lossless_iff` — when a checked field holds what it was given.
-/

namespace Qld.Arch.Ppc64

open Qld.Lib
open Qld.Lib.A64 (signExtend)
open Qld.Lib.Ppc64
open Qld.Arch.Aarch64 (asU32 asU64 asI64 fitsSigned_iff)

/-! ### Checked fields -/

/-- An instruction whose displacement has no bits below bit 4. -/
def IsDq (insn : ℕ) : Prop :=
  bits insn 26 6 = 6 ∨ bits insn 26 6 = 56 ∨ bits insn 26 6 = 61 ∧ bits insn 0 2 = 1

instance (insn : ℕ) : Decidable (IsDq insn) := inferInstanceAs (Decidable (_ ∨ _))

/-- The form of an access with a displacement that is scaled. -/
def scaledForm (insn : ℕ) : Form := if IsDq insn then .dq else .ds

/-- The fields that are checked. -/
def Field.checked : Field → Bool
  | .half16Signed | .hi | .ha | .ds | .rel24 | .rel14 | .addr24 | .addr14 | .relDxHa
  | .prefixed34 => true
  | _ => false

/-- Packs `value` by the size of the field. -/
def Field.encode (field : Field) (insn : ℕ) (value : ℤ) : Except EncodeError ℕ :=
  if field.bytes = 2 then field.encode16 value
  else if field.bytes = 8 then field.encode64 insn value
  else field.encode32 insn value

/-- The bits of a field. -/
def Field.runs (field : Field) (insn : ℕ) : List (ℕ × ℕ) :=
  match field with
  | .ds => if IsDq insn then [(4, 12)] else [(2, 14)]
  | .relDxHa => [(0, 1), (6, 15)]
  | .rel24 | .addr24 => [(2, 24)]
  | .rel14 | .addr14 => [(2, 14)]
  | .prefixed34 => [(0, 16), (32, 18)]
  | _ => [(0, 16)]

/-- The split immediate of a DX-form instruction. -/
def dxImmediate (word : ℕ) : ℤ :=
  signExtend 16 (bits word 6 10 * 2 ^ 6 + bits word 16 5 * 2 + bits word 0 1)

/-- What the architecture makes of a field is the value, or the part of it that belongs there. -/
def Field.Reads (field : Field) (insn word : ℕ) (value : ℤ) : Prop :=
  match field with
  | .half16Signed => signExtend 16 word = value
  | .hi => (word : ℤ) = value / 2 ^ 16 % 2 ^ 16
  | .ha => signExtend 16 word * 2 ^ 16 + signExtend 16 (Ppc64.lo (asU64 value)) = value
  | .ds => displacement (scaledForm insn) word = value
  | .relDxHa => dxImmediate word * 2 ^ 16 + signExtend 16 (Ppc64.lo (asU64 value)) = value
  | .rel24 => signExtend 26 (bits word 2 24 * 4) = value
  | .rel14 => signExtend 16 (bits word 2 14 * 4) = value
  | .addr24 => signExtend 26 (bits word 2 24 * 4) = value ∨ (bits word 2 24 * 4 : ℤ) = value
  | .addr14 => signExtend 16 (bits word 2 14 * 4) = value ∨ (bits word 2 14 * 4 : ℤ) = value
  | .prefixed34 => signExtend 34 (bits word 32 18 * 2 ^ 16 + bits word 0 16) = value
  | _ => True

/-- The values that a field can hold. -/
def Field.Holds (field : Field) (insn : ℕ) (value : ℤ) : Prop :=
  match field with
  | .half16Signed => -2 ^ 15 ≤ value ∧ value < 2 ^ 15
  | .hi => -2 ^ 31 ≤ value ∧ value < 2 ^ 31
  | .ha | .relDxHa => -2 ^ 31 - 2 ^ 15 ≤ value ∧ value < 2 ^ 31 - 2 ^ 15
  | .ds => (-2 ^ 15 ≤ value ∧ value < 2 ^ 15) ∧ (if IsDq insn then 16 else 4) ∣ value
  | .rel24 => 4 ∣ value ∧ -2 ^ 25 ≤ value ∧ value < 2 ^ 25
  | .rel14 => 4 ∣ value ∧ -2 ^ 15 ≤ value ∧ value < 2 ^ 15
  | .addr24 => 4 ∣ value ∧ -2 ^ 25 ≤ value ∧ value < 2 ^ 26
  | .addr14 => 4 ∣ value ∧ -2 ^ 15 ≤ value ∧ value < 2 ^ 16
  | .prefixed34 => -2 ^ 33 ≤ value ∧ value < 2 ^ 33
  | _ => True

/-- A packed value is read back and nothing else changes; what cannot be held is an overflow. -/
def Field.Lossless (field : Field) (insn : ℕ) (value : ℤ) : Prop :=
  (∀ word, field.encode insn value = .ok word → word < 2 ^ (8 * field.bytes) ∧
    KeepsOutside (field.runs insn) (8 * field.bytes) insn word ∧ field.Reads insn word value) ∧
  (field.encode insn value = .error .overflow ↔ ¬field.Holds insn value)

/-- An absolute conditional branch loses the bits of its target from 16 on. -/
def Field.Truncates (field : Field) (value : ℤ) : Prop :=
  field = .addr14 ∧ 4 ∣ value ∧ ¬(-2 ^ 15 ≤ value ∧ value < 2 ^ 16)

/-! ### Parts of a value -/

variable (v : ℕ)

theorem lo_eq : lo v = v % 2 ^ 16 := Nat.and_two_pow_sub_one_eq_mod v 16

theorem hi_eq : hi v = v / 2 ^ 16 % 2 ^ 16 := by
  rw [hi, show 0xffff = 2 ^ 16 - 1 from rfl, Nat.and_two_pow_sub_one_eq_mod,
    Nat.shiftRight_eq_div_pow]

theorem ha_eq : ha v = (v + 0x8000) % 2 ^ 64 / 2 ^ 16 % 2 ^ 16 := by
  rw [ha, wrappingAdd, show 0xffff = 2 ^ 16 - 1 from rfl, Nat.and_two_pow_sub_one_eq_mod,
    Nat.shiftRight_eq_div_pow]

theorem lo_lt : lo v < 2 ^ 16 := Nat.and_lt_two_pow v (by decide)

theorem hi_lt : hi v < 2 ^ 16 := Nat.and_lt_two_pow _ (by decide)

theorem ha_lt : ha v < 2 ^ 16 := Nat.and_lt_two_pow _ (by decide)

section Value

variable {value : ℤ}

theorem fits_ha (hlow : -2 ^ 63 ≤ value) (hhigh : value < 2 ^ 63) :
    fitsSigned (wrappingAddI64 value 0x8000) 32 = true ↔
      -2 ^ 31 - 2 ^ 15 ≤ value ∧ value < 2 ^ 31 - 2 ^ 15 := by
  have hfits : fitsSigned (wrappingAddI64 value 0x8000) 32 = true ↔
      -2 ^ 31 ≤ wrappingAddI64 value 0x8000 ∧ wrappingAddI64 value 0x8000 < 2 ^ 31 :=
    fitsSigned_iff (by decide) (by decide)
  rw [hfits, wrappingAddI64, asI64]
  omega

/-- **The two parts of a value.** -/
theorem ha_lo (hlow : -2 ^ 31 - 2 ^ 15 ≤ value) (hhigh : value < 2 ^ 31 - 2 ^ 15) :
    signExtend 16 (ha (asU64 value)) * 2 ^ 16 + signExtend 16 (lo (asU64 value)) = value := by
  rw [ha_eq, lo_eq, signExtend, signExtend, asU64]
  split <;> split <;> omega

theorem haIsZero_iff (hlow : -2 ^ 63 ≤ value) (hhigh : value < 2 ^ 63) :
    haIsZero (asU64 value) = true ↔ -2 ^ 15 ≤ value ∧ value < 2 ^ 15 := by
  rw [haIsZero, wrappingAdd, beq_iff_eq, Nat.shiftRight_eq_div_pow, asU64]
  omega

theorem signExtend_lo (hlow : -2 ^ 15 ≤ value) (hhigh : value < 2 ^ 15) :
    signExtend 16 (lo (asU64 value)) = value := by
  rw [lo_eq, signExtend, asU64]
  split <;> omega

end Value

/-! ### The checked fields, one by one -/

section Fields

variable {field : Field} {insn : ℕ} {value : ℤ}

/-- A field that is packed when a condition fails, which is when it holds the value. -/
theorem lossless_of_ite {c : Prop} [Decidable c] {word : ℕ}
    (hencode : field.encode insn value = if c then .error .overflow else .ok word)
    (hholds : ¬c ↔ field.Holds insn value)
    (hword : field.Holds insn value → word < 2 ^ (8 * field.bytes) ∧
      KeepsOutside (field.runs insn) (8 * field.bytes) insn word ∧ field.Reads insn word value) :
    field.Lossless insn value := by
  refine ⟨fun w hw => ?_, ?_⟩
  · obtain ⟨hc, hw⟩ := ite_error_eq_ok.mp (hencode.symm.trans hw)
    obtain rfl := Except.ok.inj hw
    exact hword (hholds.mp hc)
  · rw [hencode, ← hholds, Classical.not_not]
    by_cases hc : c
    · rw [if_pos hc]
      exact iff_of_true rfl hc
    · rw [if_neg hc]
      exact iff_of_false (fun h => by cases h) hc

theorem keeps_half (x y : ℕ) : KeepsOutside [(0, 16)] 16 x y :=
  keepsOutside_of_bits [] (by decide) (List.forall_mem_nil _)

theorem lossless_half16Signed : Field.half16Signed.Lossless insn value := by
  have hfits : fitsSigned value 16 = true ↔ -2 ^ 15 ≤ value ∧ value < 2 ^ 15 :=
    fitsSigned_iff (by decide) (by decide)
  refine lossless_of_ite rfl (by rw [Bool.not_eq_false, hfits, Field.Holds]) fun hholds => ?_
  exact ⟨lo_lt _, keeps_half insn _, signExtend_lo hholds.1 hholds.2⟩

theorem lossless_hi : Field.hi.Lossless insn value := by
  have hfits : fitsSigned value 32 = true ↔ -2 ^ 31 ≤ value ∧ value < 2 ^ 31 :=
    fitsSigned_iff (by decide) (by decide)
  refine lossless_of_ite rfl (by rw [Bool.not_eq_false, hfits, Field.Holds]) fun _ => ?_
  refine ⟨hi_lt _, keeps_half insn _, ?_⟩
  rw [Field.Reads, hi_eq, asU64]
  omega

theorem lossless_ha (hlow : -2 ^ 63 ≤ value) (hhigh : value < 2 ^ 63) :
    Field.ha.Lossless insn value := by
  refine lossless_of_ite rfl (by rw [Bool.not_eq_false, fits_ha hlow hhigh, Field.Holds])
    fun hholds => ?_
  exact ⟨ha_lt _, keeps_half insn _, ha_lo hholds.1 hholds.2⟩

/-! #### Scaled displacements -/

theorem primaryOpcode_eq (hinsn : insn < 2 ^ 32) : primaryOpcode insn = bits insn 26 6 := by
  rw [primaryOpcode, Nat.shiftRight_eq_div_pow, bits]
  omega

theorem isDqForm_iff (hinsn : insn < 2 ^ 32) : isDqForm insn = true ↔ IsDq insn := by
  have hlow : insn &&& 3 = bits insn 0 2 := land_low_mask insn 2
  rw [isDqForm, primaryOpcode_eq hinsn, hlow, IsDq]
  by_cases h₁ : bits insn 26 6 = 6 ∨ bits insn 26 6 = 56
  · rw [if_pos h₁]
    refine iff_of_true rfl ?_
    omega
  · rw [if_neg h₁]
    by_cases h₂ : bits insn 26 6 = 61
    · rw [if_pos h₂, beq_iff_eq]
      omega
    · rw [if_neg h₂]
      refine iff_of_false Bool.false_ne_true ?_
      omega

theorem dsMask_eq (hinsn : insn < 2 ^ 32) : dsMask insn = if IsDq insn then 0xf else 0x3 := by
  rw [dsMask]
  simp only [isDqForm_iff hinsn]

/-- The word of an access with a scaled displacement. -/
def dsWord (insn mask half : ℕ) : ℕ := low insn ((insn &&& mask) ||| half)

theorem dsWord_lt (insn mask half : ℕ) : dsWord insn mask half < 2 ^ 32 :=
  Nat.or_lt_two_pow (Nat.and_lt_two_pow _ (by decide)) (Nat.and_lt_two_pow _ (by decide))

theorem keeps_dsWord (insn half : ℕ) (hhalf : half % 4 = 0) :
    KeepsOutside [(2, 14)] 32 insn (dsWord insn 0x3 half) := by
  have hzero : bits half 0 2 = 0 := by
    rw [bits]
    omega
  refine keepsOutside_of_bits [(0, 2), (16, 16)] (by decide) ?_
  simp [dsWord, low, hzero]

theorem keeps_dqWord (insn half : ℕ) (hhalf : half % 16 = 0) :
    KeepsOutside [(4, 12)] 32 insn (dsWord insn 0xf half) := by
  have hzero : bits half 0 4 = 0 := by
    rw [bits]
    omega
  refine keepsOutside_of_bits [(0, 4), (16, 16)] (by decide) ?_
  simp [dsWord, low, hzero]

theorem displacement_dsWord (insn : ℕ) {half : ℕ} (hhalf : half < 2 ^ 16) (hmod : half % 4 = 0) :
    displacement .ds (dsWord insn 0x3 half) = signExtend 16 half := by
  have hsplit : bits half 2 14 * 4 = half := by
    rw [bits]
    omega
  rw [displacement, ← hsplit]
  refine congrArg (signExtend 16) ?_
  rw [hsplit]
  refine Eq.trans ?_ hsplit
  simp [dsWord, low]

theorem displacement_dqWord (insn : ℕ) {half : ℕ} (hhalf : half < 2 ^ 16) (hmod : half % 16 = 0) :
    displacement .dq (dsWord insn 0xf half) = signExtend 16 half := by
  have hsplit : bits half 4 12 * 16 = half := by
    rw [bits]
    omega
  rw [displacement]
  refine congrArg (signExtend 16) (Eq.trans ?_ hsplit)
  simp [dsWord, low]

theorem lo_land (v n : ℕ) (hn : n ≤ 16) : lo v &&& (2 ^ n - 1) = v % 2 ^ n := by
  rw [Nat.and_two_pow_sub_one_eq_mod, lo_eq, Nat.mod_mod_of_dvd _ (Nat.pow_dvd_pow 2 hn)]

theorem lossless_ds (hinsn : insn < 2 ^ 32) : Field.ds.Lossless insn value := by
  have hfits : fitsSigned value 16 = true ↔ -2 ^ 15 ≤ value ∧ value < 2 ^ 15 :=
    fitsSigned_iff (by decide) (by decide)
  have hds : lo (asU64 value) &&& 0x3 = asU64 value % 4 := lo_land _ 2 (by decide)
  have hdq : lo (asU64 value) &&& 0xf = asU64 value % 16 := lo_land _ 4 (by decide)
  have hlt := lo_lt (asU64 value)
  have hlo := lo_eq (asU64 value)
  refine lossless_of_ite rfl ?_ fun hholds => ?_
  · rw [not_or, Bool.not_eq_false, hfits, Classical.not_not, Field.Holds, dsMask_eq hinsn]
    refine and_congr_right fun _ => ?_
    split
    · rw [hdq, asU64]
      omega
    · rw [hds, asU64]
      omega
  · obtain ⟨hrange, hdvd⟩ := hholds
    have hsign := signExtend_lo hrange.1 hrange.2
    rw [dsMask_eq hinsn]
    by_cases hform : IsDq insn
    · rw [if_pos hform] at hdvd ⊢
      have hmod : lo (asU64 value) % 16 = 0 := by
        rw [hlo, asU64]
        omega
      refine ⟨dsWord_lt insn _ _, ?_, ?_⟩
      · rw [Field.runs, if_pos hform]
        exact keeps_dqWord insn _ hmod
      · rw [Field.Reads, scaledForm, if_pos hform]
        exact (displacement_dqWord insn hlt hmod).trans hsign
    · rw [if_neg hform] at hdvd ⊢
      have hmod : lo (asU64 value) % 4 = 0 := by
        rw [hlo, asU64]
        omega
      refine ⟨dsWord_lt insn _ _, ?_, ?_⟩
      · rw [Field.runs, if_neg hform]
        exact keeps_dsWord insn _ hmod
      · rw [Field.Reads, scaledForm, if_neg hform]
        exact (displacement_dsWord insn hlt hmod).trans hsign

/-! #### Split immediates -/

theorem lossless_relDxHa (hlow : -2 ^ 63 ≤ value) (hhigh : value < 2 ^ 63) :
    Field.relDxHa.Lossless insn value := by
  refine lossless_of_ite rfl (by rw [Bool.not_eq_false, fits_ha hlow hhigh, Field.Holds])
    fun hholds => ?_
  have hlt := ha_lt (asU64 value)
  have hsum := ha_lo hholds.1 hholds.2
  generalize ha (asU64 value) = half at hlt hsum ⊢
  have hkeeps : KeepsOutside [(0, 1), (6, 15)] 32 insn
      ((insn &&& 0xffe0003e) ||| (half &&& 0xffc1) ||| (half &&& 0x3e) <<< 15) := by
    refine keepsOutside_of_bits [(1, 5), (21, 11)] (by decide) ?_
    simp [bits_shiftLeft, bits_shiftLeft_low, Nat.shiftLeft_and_distrib]
  refine ⟨?_, hkeeps, ?_⟩
  · exact Nat.or_lt_two_pow (Nat.or_lt_two_pow (Nat.and_lt_two_pow _ (by decide))
      (Nat.and_lt_two_pow _ (by decide))) (land_shiftLeft_lt _ (by decide))
  · have hsplit : bits half 6 10 * 2 ^ 6 + bits half 1 5 * 2 + bits half 0 1 = half := by
      simp only [bits]
      omega
    rw [Field.Reads, dxImmediate]
    refine Eq.trans (congrArg (fun n => signExtend 16 n * 2 ^ 16 + _) (Eq.trans ?_ hsplit)) hsum
    simp [bits_shiftLeft, bits_shiftLeft_low, Nat.shiftLeft_and_distrib, -Nat.and_one_is_mod]

/-! #### Branches -/

/-- The word of a branch. -/
def branchWord (insn v mask field : ℕ) : ℕ := (insn &&& mask) ||| (v &&& field)

theorem branch24_spec (insn : ℕ) (value : ℤ) :
    branchWord insn (asU32 value) 0xfc000003 0x03fffffc < 2 ^ 32 ∧
      KeepsOutside [(2, 24)] 32 insn (branchWord insn (asU32 value) 0xfc000003 0x03fffffc) ∧
        bits (branchWord insn (asU32 value) 0xfc000003 0x03fffffc) 2 24 =
          bits (asU32 value) 2 24 := by
  refine ⟨Nat.or_lt_two_pow (Nat.and_lt_two_pow _ (by decide)) (Nat.and_lt_two_pow _ (by decide)),
    keepsOutside_of_bits [(0, 2), (26, 6)] (by decide) ?_, ?_⟩
  · simp [branchWord]
  · simp [branchWord]

theorem branch14_spec (insn : ℕ) (value : ℤ) :
    branchWord insn (asU32 value) 0xffff0003 0xfffc < 2 ^ 32 ∧
      KeepsOutside [(2, 14)] 32 insn (branchWord insn (asU32 value) 0xffff0003 0xfffc) ∧
        bits (branchWord insn (asU32 value) 0xffff0003 0xfffc) 2 14 = bits (asU32 value) 2 14 := by
  refine ⟨Nat.or_lt_two_pow (Nat.and_lt_two_pow _ (by decide)) (Nat.and_lt_two_pow _ (by decide)),
    keepsOutside_of_bits [(0, 2), (16, 16)] (by decide) ?_, ?_⟩
  · simp [branchWord]
  · simp [branchWord]

theorem lossless_rel24 : Field.rel24.Lossless insn value := by
  have hfits : fitsSigned value 26 = true ↔ -2 ^ 25 ≤ value ∧ value < 2 ^ 25 :=
    fitsSigned_iff (by decide) (by decide)
  refine lossless_of_ite rfl ?_ fun hholds => ?_
  · rw [not_or, Bool.not_eq_false, hfits, Field.Holds]
    omega
  · obtain ⟨hlt, hkeeps, hbits⟩ := branch24_spec insn value
    refine ⟨hlt, hkeeps, ?_⟩
    obtain ⟨hdvd, hlow, hhigh⟩ := hholds
    refine Eq.trans (congrArg (fun n => signExtend 26 (n * 4)) hbits) ?_
    show signExtend 26 (bits (asU32 value) 2 24 * 4) = value
    rw [signExtend, bits, asU32]
    split <;> omega

theorem lossless_addr24 : Field.addr24.Lossless insn value := by
  have hfits : fitsSigned value 26 = true ↔ -2 ^ 25 ≤ value ∧ value < 2 ^ 25 :=
    fitsSigned_iff (by decide) (by decide)
  refine lossless_of_ite rfl ?_ fun hholds => ?_
  · rw [not_or, Classical.not_not, hfits, Field.Holds]
    omega
  · obtain ⟨hlt, hkeeps, hbits⟩ := branch24_spec insn value
    refine ⟨hlt, hkeeps, ?_⟩
    obtain ⟨hdvd, hlow, hhigh⟩ := hholds
    have hword : signExtend 26 (bits (asU32 value) 2 24 * 4) = value ∨
        (bits (asU32 value) 2 24 * 4 : ℤ) = value := by
      rw [signExtend, bits, asU32]
      split <;> omega
    rw [← hbits] at hword
    exact hword

theorem lossless_rel14 : Field.rel14.Lossless insn value := by
  have hfits : fitsSigned value 16 = true ↔ -2 ^ 15 ≤ value ∧ value < 2 ^ 15 :=
    fitsSigned_iff (by decide) (by decide)
  refine lossless_of_ite rfl ?_ fun hholds => ?_
  · rw [not_or, Bool.not_eq_false, hfits, Field.Holds]
    omega
  · obtain ⟨hlt, hkeeps, hbits⟩ := branch14_spec insn value
    refine ⟨hlt, hkeeps, ?_⟩
    obtain ⟨hdvd, hlow, hhigh⟩ := hholds
    refine Eq.trans (congrArg (fun n => signExtend 16 (n * 4)) hbits) ?_
    show signExtend 16 (bits (asU32 value) 2 14 * 4) = value
    rw [signExtend, bits, asU32]
    split <;> omega

theorem lossless_addr14_iff : Field.addr14.Lossless insn value ↔ ¬Field.addr14.Truncates value := by
  obtain ⟨hlt, hkeeps, hbits⟩ := branch14_spec insn value
  refine ⟨fun h htrunc => ?_, fun htrunc => ?_⟩
  · obtain ⟨-, hdvd, hout⟩ := htrunc
    have hok : Field.addr14.encode insn value = .ok _ :=
      if_neg (not_not.mpr (Int.emod_eq_zero_of_dvd hdvd))
    have herror := h.2.mpr fun hholds => hout hholds.2
    cases hok.symm.trans herror
  · refine lossless_of_ite rfl ?_ fun hholds => ⟨hlt, hkeeps, ?_⟩
    · rw [Classical.not_not, Field.Holds]
      refine ⟨fun hmod => ?_, fun h => Int.emod_eq_zero_of_dvd h.1⟩
      have hdvd := Int.dvd_of_emod_eq_zero hmod
      exact ⟨hdvd, by_contra fun hout => htrunc ⟨rfl, hdvd, hout⟩⟩
    · obtain ⟨hdvd, hlow, hhigh⟩ := hholds
      have hword : signExtend 16 (bits (asU32 value) 2 14 * 4) = value ∨
          (bits (asU32 value) 2 14 * 4 : ℤ) = value := by
        rw [signExtend, bits, asU32]
        split <;> omega
      rw [← hbits] at hword
      exact hword

theorem lossless_prefixed34 : Field.prefixed34.Lossless insn value := by
  have hfits : fitsSigned value 34 = true ↔ -2 ^ 33 ≤ value ∧ value < 2 ^ 33 :=
    fitsSigned_iff (by decide) (by decide)
  refine lossless_of_ite rfl (by rw [Bool.not_eq_false, hfits, Field.Holds]) fun hholds => ?_
  have hkeeps : KeepsOutside [(0, 16), (32, 18)] 64 insn
      ((insn &&& 0xfffc0000ffff0000) ||| (asU64 value &&& 0x3ffff0000) <<< 16 |||
        (asU64 value &&& 0xffff)) := by
    refine keepsOutside_of_bits [(16, 16), (50, 14)] (by decide) ?_
    simp [bits_shiftLeft, Nat.shiftLeft_and_distrib]
  refine ⟨?_, hkeeps, ?_⟩
  · exact Nat.or_lt_two_pow (Nat.or_lt_two_pow (Nat.and_lt_two_pow _ (by decide))
      (land_shiftLeft_lt _ (by decide))) (Nat.and_lt_two_pow _ (by decide))
  · obtain ⟨hlow, hhigh⟩ := hholds
    have hvalue : signExtend 34 (bits (asU64 value) 16 18 * 2 ^ 16 + bits (asU64 value) 0 16) =
        value := by
      rw [signExtend, bits, bits, asU64]
      split <;> omega
    rw [Field.Reads]
    refine Eq.trans (congrArg (signExtend 34) ?_) hvalue
    simp [bits_shiftLeft, Nat.shiftLeft_and_distrib]

/-- **Checked fields are lossless, unless they truncate.** -/
theorem Field.lossless_iff (hfield : field.checked = true) (hinsn : insn < 2 ^ (8 * field.bytes))
    (hlow : -2 ^ 63 ≤ value) (hhigh : value < 2 ^ 63) :
    field.Lossless insn value ↔ ¬field.Truncates value := by
  by_cases haddr : field = .addr14
  · rw [haddr]
    exact lossless_addr14_iff
  · refine iff_of_true ?_ fun h => haddr h.1
    cases field with
    | half16Signed => exact lossless_half16Signed
    | hi => exact lossless_hi
    | ha => exact lossless_ha hlow hhigh
    | ds => exact lossless_ds hinsn
    | relDxHa => exact lossless_relDxHa hlow hhigh
    | rel24 => exact lossless_rel24
    | rel14 => exact lossless_rel14
    | addr24 => exact lossless_addr24
    | addr14 => exact absurd rfl haddr
    | prefixed34 => exact lossless_prefixed34
    | _ => cases hfield

end Fields

end Qld.Arch.Ppc64
