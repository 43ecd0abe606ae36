import Qld.Arch.Aarch64
import Qld.Lib.WordFields

/-!
# Fields of AArch64 instructions, read back

What the architecture makes of the immediate that was packed into an instruction.

* `Field.runs`, `Field.Keeps` — the bits of a field, and that no other bit changed;
* `moved`, `Field.Reads` — what an instruction computes with;
* `Field.Holds` — the values a field can hold; `Field.Lossless` — what a checked encoder promises;
* `testBit_insert` — packing replaces the bits of the field;
* `lossless_branch`, `lossless_adr21`, ... — the fields, one by one;
* `Field.encode_lossless_iff` — when a field holds what it was given.
-/

namespace Qld.Arch.Aarch64

open Qld.Lib
open Qld.Lib.A64 (signExtend)

/-! ### The fields -/

/-- The bits that a field takes: the first, and how many. -/
def Field.runs : Field → List (ℕ × ℕ)
  | .branch26 => [(0, 26)]
  | .branch19 => [(5, 19)]
  | .branch14 => [(5, 14)]
  | .adr21 | .adrp21 | .adrp21Nc => [(5, 19), (29, 2)]
  | .add12 | .add12Checked | .addHi12 | .ldSt _ _ | .ldSt15 => [(10, 12)]
  -- Bit 30 tells `movz` from `movn`.
  | .movw _ .signed => [(5, 16), (30, 1)]
  | .movw _ _ => [(5, 16)]
  | .data32 | .data32Signed => [(0, 32)]
  | .data16 => [(0, 16)]

/-- The number of bytes that a field occupies. -/
def Field.bytes : Field → ℕ
  | .data16 => 2
  | _ => 4

/-- Of the bytes of the field, only its own bits differ. -/
def Field.Keeps (field : Field) (insn word : ℕ) : Prop :=
  ∀ i < 8 * field.bytes, (∀ run ∈ field.runs, ¬(run.1 ≤ i ∧ i < run.1 + run.2)) →
    word.testBit i = insn.testBit i

/-- The half-words that occur in the source. -/
def Field.Valid : Field → Prop
  | .movw shift _ => shift = 0 ∨ shift = 16 ∨ shift = 32 ∨ shift = 48
  | _ => True

/-- What `movz` or `movn` loads. -/
def moved (word shift : ℕ) : Option ℤ :=
  if bits word 29 2 = 2 then some (bits word 5 16 * 2 ^ shift)
  else if bits word 29 2 = 0 then some (-(bits word 5 16 * 2 ^ shift) - 1)
  else none

/-- What an instruction computes with is the value, or the part of it that belongs to the field. -/
def Field.Reads (field : Field) (word : ℕ) (value : ℤ) : Prop :=
  match field with
  | .branch26 => signExtend 26 (bits word 0 26) * 4 = value
  | .branch19 => signExtend 19 (bits word 5 19) * 4 = value
  | .branch14 => signExtend 14 (bits word 5 14) * 4 = value
  | .adr21 => signExtend 21 (bits word 29 2 + 4 * bits word 5 19) = value
  | .adrp21 => signExtend 21 (bits word 29 2 + 4 * bits word 5 19) * 4096 = value
  | .adrp21Nc => (bits word 29 2 + 4 * bits word 5 19 : ℤ) = value / 4096 % 2 ^ 21
  | .add12 => bits word 10 12 = value % 4096
  | .add12Checked => bits word 10 12 = value
  | .addHi12 => bits word 10 12 * 4096 + value % 4096 = value
  | .ldSt scale true => bits word 10 12 * 2 ^ min scale 4 = value
  | .ldSt scale false => bits word 10 12 * 2 ^ min scale 4 = value % 4096
  | .ldSt15 => bits word 10 12 * 8 = value
  | .movw shift .none => bits word 5 16 = value / 2 ^ shift % 2 ^ 16
  -- The lower half-words come from other instructions.
  | .movw shift .unsigned => bits word 5 16 * 2 ^ shift / 2 ^ shift = asU64 value / 2 ^ shift
  | .movw shift .signed => ∀ loaded, moved word shift = some loaded →
      loaded / 2 ^ shift = value / 2 ^ shift
  | .data32 => (word : ℤ) = value ∨ signExtend 32 word = value
  | .data32Signed => signExtend 32 word = value
  | .data16 => (word : ℤ) = value ∨ signExtend 16 word = value

/-- The values that a field can hold. -/
def Field.Holds (field : Field) (value : ℤ) : Prop :=
  match field with
  | .branch26 => 4 ∣ value ∧ -2 ^ 27 ≤ value ∧ value < 2 ^ 27
  | .branch19 => 4 ∣ value ∧ -2 ^ 20 ≤ value ∧ value < 2 ^ 20
  | .branch14 => 4 ∣ value ∧ -2 ^ 15 ≤ value ∧ value < 2 ^ 15
  | .adr21 => -2 ^ 20 ≤ value ∧ value < 2 ^ 20
  | .adrp21 => 4096 ∣ value ∧ -2 ^ 32 ≤ value ∧ value < 2 ^ 32
  | .adrp21Nc => 4096 ∣ value
  | .add12 => True
  | .add12Checked => 0 ≤ value ∧ value < 2 ^ 12
  | .addHi12 => 0 ≤ value ∧ value < 2 ^ 24
  | .ldSt scale checked => 2 ^ min scale 4 ∣ value ∧
      (checked = true → 0 ≤ value ∧ value < 2 ^ (min scale 4 + 12))
  | .ldSt15 => 8 ∣ value ∧ 0 ≤ value ∧ value < 2 ^ 15
  | .movw _ .none => True
  -- 64 bits hold everything.
  | .movw shift .unsigned => shift = 48 ∨ 0 ≤ value ∧ value < 2 ^ (shift + 16)
  | .movw shift .signed => -2 ^ (shift + 15) ≤ value ∧ value < 2 ^ (shift + 15)
  | .data32 => -2 ^ 31 ≤ value ∧ value < 2 ^ 32
  | .data32Signed => -2 ^ 31 ≤ value ∧ value < 2 ^ 31
  | .data16 => -2 ^ 15 ≤ value ∧ value < 2 ^ 16

/-- A packed value is read back and nothing else changes; what cannot be held is an error. -/
def Field.Lossless (field : Field) (insn : ℕ) (value : ℤ) : Prop :=
  (∀ word, field.encode insn value = .ok word →
    word < 2 ^ 32 ∧ field.Keeps insn word ∧ field.Reads word value) ∧
  (field.encode insn value = .error {} ↔ ¬field.Holds value)

/-- A checked load or store takes `scale + 12` bits, of which it writes those below bit 12. -/
def Field.Truncates (field : Field) (value : ℤ) : Prop :=
  match field with
  | .ldSt scale true => 2 ^ min scale 4 ∣ value ∧ 2 ^ 12 ≤ value ∧ value < 2 ^ (min scale 4 + 12)
  | _ => False

/-- A `movn` stays one when the value is not negative. -/
def Field.KeepsMovn (field : Field) (insn : ℕ) (value : ℤ) : Prop :=
  match field with
  | .movw shift .signed => bits insn 29 2 = 0 ∧ 0 ≤ value ∧ value < 2 ^ (shift + 15)
  | _ => False

/-! ### Bits -/

section Insert

variable {insn lsb n : ℕ}

/-- **Packing replaces the bits of the field.** -/
theorem testBit_insert (hinsn : insn < 2 ^ 32) (value : ℕ) (hfit : lsb + n ≤ 32) (hn : n < 32)
    (hlsb : lsb < 32) (i : ℕ) :
    (insert insn value lsb n).testBit i =
      if lsb ≤ i ∧ i < lsb + n then value.testBit (i - lsb) else insn.testBit i := by
  have hlt : (value % 2 ^ n) <<< lsb < 2 ^ 32 := by
    rw [Nat.shiftLeft_eq]
    calc value % 2 ^ n * 2 ^ lsb < 2 ^ n * 2 ^ lsb :=
          Nat.mul_lt_mul_of_pos_right (Nat.mod_lt _ (Nat.two_pow_pos _)) (Nat.two_pow_pos _)
      _ = 2 ^ (lsb + n) := by rw [← Nat.pow_add, Nat.add_comm]
      _ ≤ 2 ^ 32 := Nat.pow_le_pow_right (by decide) hfit
  rw [insert, if_pos hn, Nat.and_two_pow_sub_one_eq_mod, Nat.testBit_or, Nat.testBit_and,
    testBit_mask hfit hlsb, shl32, if_pos hlsb, Nat.mod_eq_of_lt hlt, Nat.testBit_shiftLeft,
    Nat.testBit_mod_two_pow]
  by_cases hle : lsb ≤ i
  · by_cases hin : i < lsb + n
    · have hlow : i - lsb < n := by omega
      simp [hle, hin, hlow]
    · have hhigh : ¬i - lsb < n := by omega
      by_cases h32 : i < 32
      · simp [hle, hin, hhigh, h32]
      · have hzero : insn.testBit i = false :=
          Nat.testBit_lt_two_pow (hinsn.trans_le (Nat.pow_le_pow_right (by decide) (by omega)))
        simp [hle, hin, hhigh, hzero]
  · have h32 : i < 32 := by omega
    simp [hle, h32]

theorem insert_lt (hinsn : insn < 2 ^ 32) (value : ℕ) (hfit : lsb + n ≤ 32) (hn : n < 32)
    (hlsb : lsb < 32) : insert insn value lsb n < 2 ^ 32 := by
  refine Nat.lt_pow_two_of_testBit _ fun i hi => ?_
  rw [testBit_insert hinsn value hfit hn hlsb, if_neg (by omega)]
  exact Nat.testBit_lt_two_pow (hinsn.trans_le (Nat.pow_le_pow_right (by decide) hi))

theorem bits_insert (hinsn : insn < 2 ^ 32) (value : ℕ) (hfit : lsb + n ≤ 32) (hn : n < 32)
    (hlsb : lsb < 32) : bits (insert insn value lsb n) lsb n = value % 2 ^ n := by
  refine Nat.eq_of_testBit_eq fun i => ?_
  rw [testBit_bits, testBit_insert hinsn value hfit hn hlsb, Nat.testBit_mod_two_pow]
  by_cases hi : i < n
  · rw [if_pos (by omega), Nat.add_sub_cancel_left]
  · simp [hi]

theorem bits_insert_of_apart (hinsn : insn < 2 ^ 32) (value : ℕ) (hfit : lsb + n ≤ 32) (hn : n < 32)
    (hlsb : lsb < 32) {l w : ℕ} (hapart : l + w ≤ lsb ∨ lsb + n ≤ l) :
    bits (insert insn value lsb n) l w = bits insn l w := by
  refine Nat.eq_of_testBit_eq fun i => ?_
  rw [testBit_bits, testBit_bits, testBit_insert hinsn value hfit hn hlsb]
  by_cases hi : i < w
  · rw [if_neg (by omega)]
  · simp [hi]

end Insert

/-! ### Ranges -/

variable {value : ℤ} {n : ℕ}

theorem fitsUnsigned_iff (hn : n < 63) :
    fitsUnsigned value n = true ↔ 0 ≤ value ∧ value < 2 ^ n := by
  have hpow : asI64 (2 ^ n) = 2 ^ n := by
    have hpos : 0 < 2 ^ n := Nat.two_pow_pos n
    have hle : 2 ^ n ≤ 2 ^ 62 := Nat.pow_le_pow_right (by decide) (by omega)
    rw [asI64, show (2 ^ n : ℤ) = ((2 ^ n : ℕ) : ℤ) by push_cast; rfl]
    omega
  rw [fitsUnsigned, if_neg (by omega), decide_eq_true_iff, hpow]

theorem fitsEither_iff (hpos : 0 < n) (hn : n < 63) :
    fitsEither value n = true ↔ -2 ^ (n - 1) ≤ value ∧ value < 2 ^ n := by
  have hdouble : (2 ^ n : ℤ) = 2 * 2 ^ (n - 1) := by
    rw [← pow_succ', Nat.sub_add_cancel hpos]
  have hpow : (0 : ℤ) < 2 ^ (n - 1) := Int.pow_pos (by decide)
  rw [fitsEither, Bool.or_eq_true, fitsSigned_iff hpos (by omega), fitsUnsigned_iff hn]
  omega

/-! ### Parts of a value -/

theorem land_asU64 (value : ℤ) : asU64 value &&& 0xfff = (value % 4096).toNat := by
  rw [show 0xfff = 2 ^ 12 - 1 from rfl, Nat.and_two_pow_sub_one_eq_mod, asU64]
  omega

theorem asU32_shiftRight (value : ℤ) (k : ℕ) (hn : n ≤ 32) :
    asU32 (value >>> k) % 2 ^ n = (value / 2 ^ k % 2 ^ n).toNat := by
  rw [asU32_mod hn, Int.shiftRight_eq_div_pow]
  push_cast
  rfl

section Adr

variable {insn : ℕ} (hinsn : insn < 2 ^ 32) (value : ℤ)

include hinsn

/-- The two parts of an `adr` immediate, put together. -/
theorem fields_insertAdr :
    bits (insertAdr insn value) 29 2 + 4 * bits (insertAdr insn value) 5 19 =
      (value % 2 ^ 21).toNat := by
  have hfirst : insert insn (asU32 (value >>> (2 : ℕ))) 5 19 < 2 ^ 32 :=
    insert_lt hinsn _ (by decide) (by decide) (by decide)
  rw [insertAdr, bits_insert hfirst _ (by decide) (by decide) (by decide),
    bits_insert_of_apart hfirst _ (by decide) (by decide) (by decide) (.inl (by decide)),
    bits_insert hinsn _ (by decide) (by decide) (by decide), asU32_shiftRight value 2 (by decide),
    show 3 = 2 ^ 2 - 1 from rfl, Nat.and_two_pow_sub_one_eq_mod, Nat.mod_mod,
    asU32_mod (by decide)]
  omega

theorem insertAdr_lt : insertAdr insn value < 2 ^ 32 :=
  insert_lt (insert_lt hinsn _ (by decide) (by decide) (by decide)) _ (by decide) (by decide)
    (by decide)

theorem testBit_insertAdr {i : ℕ} (h₁ : ¬(5 ≤ i ∧ i < 5 + 19)) (h₂ : ¬(29 ≤ i ∧ i < 29 + 2)) :
    (insertAdr insn value).testBit i = insn.testBit i := by
  have hfirst : insert insn (asU32 (value >>> (2 : ℕ))) 5 19 < 2 ^ 32 :=
    insert_lt hinsn _ (by decide) (by decide) (by decide)
  rw [insertAdr, testBit_insert hfirst _ (by decide) (by decide) (by decide), if_neg h₂,
    testBit_insert hinsn _ (by decide) (by decide) (by decide), if_neg h₁]

end Adr

/-! ### The fields, one by one -/

section Fields

variable {field : Field} {insn : ℕ} {value : ℤ}

theorem insert_keeps (hinsn : insn < 2 ^ 32) (v : ℕ) {lsb n : ℕ} (hrun : (lsb, n) ∈ field.runs)
    (hfit : lsb + n ≤ 32) (hn : n < 32) (hlsb : lsb < 32) :
    insert insn v lsb n < 2 ^ 32 ∧ field.Keeps insn (insert insn v lsb n) := by
  refine ⟨insert_lt hinsn v hfit hn hlsb, fun i _ hout => ?_⟩
  rw [testBit_insert hinsn v hfit hn hlsb, if_neg (hout _ hrun)]

/-- A field that is packed when a condition fails, which is when it holds the value. -/
theorem lossless_of_ite {c : Prop} [Decidable c] {word : ℕ}
    (hencode : field.encode insn value = if c then .error {} else .ok word)
    (hholds : c → ¬field.Holds value) (hnot : ¬c → field.Holds value)
    (hword : ¬c → word < 2 ^ 32 ∧ field.Keeps insn word ∧ field.Reads word value) :
    field.Lossless insn value := by
  refine ⟨fun w hw => ?_, fun herror => ?_, fun hout => ?_⟩
  · rw [hencode] at hw
    split at hw
    · cases hw
    · next hc =>
      cases hw
      exact hword hc
  · rw [hencode] at herror
    split at herror
    · next hc => exact hholds hc
    · cases herror
  · rw [hencode, if_pos (by_contra fun hc => hout (hnot hc))]

theorem lossless_of_fits {fits : Bool} {word : ℕ}
    (hencode : field.encode insn value = if fits = false then .error {} else .ok word)
    (hfits : fits = true ↔ field.Holds value)
    (hword : field.Holds value → word < 2 ^ 32 ∧ field.Keeps insn word ∧ field.Reads word value) :
    field.Lossless insn value := by
  refine lossless_of_ite hencode (fun hc hv => ?_) (fun hc => ?_) fun hc => hword ?_
  · exact Bool.false_ne_true (hc.symm.trans (hfits.mpr hv))
  all_goals exact hfits.mp (Bool.eq_true_of_not_eq_false hc)

/-- A field of a multiple, the range of which is checked after the multiple. -/
theorem lossless_of_aligned {unit : ℤ} {range : Prop} {fits : Bool} {word : ℕ}
    (hencode : field.encode insn value =
      if value % unit ≠ 0 ∨ fits = false then .error {} else .ok word)
    (hfits : fits = true ↔ range) (hholds : field.Holds value ↔ unit ∣ value ∧ range)
    (hword : value % unit = 0 → range →
      word < 2 ^ 32 ∧ field.Keeps insn word ∧ field.Reads word value) :
    field.Lossless insn value := by
  have hpasses : ¬(value % unit ≠ 0 ∨ fits = false) ↔ value % unit = 0 ∧ range := by
    rw [not_or, not_not, Bool.not_eq_false, hfits]
  rw [Int.dvd_iff_emod_eq_zero, ← hpasses] at hholds
  refine lossless_of_ite hencode (fun hc hv => hholds.mp hv hc) hholds.mpr fun hc => ?_
  exact hword (hpasses.mp hc).1 (hpasses.mp hc).2

theorem lossless_branch (lsb n : ℕ) (hinsn : insn < 2 ^ 32)
    (hencode : field.encode insn value = encodeBranch insn value lsb n)
    (hruns : (lsb, n) ∈ field.runs) (hfit : lsb + n ≤ 32) (hn : 0 < n) (hlt : n < 32)
    (hlsb : lsb < 32)
    (hholds : field.Holds value ↔ 4 ∣ value ∧ -2 ^ (n + 1) ≤ value ∧ value < 2 ^ (n + 1))
    (hreads : ∀ word, field.Reads word value ↔ signExtend n (bits word lsb n) * 4 = value) :
    field.Lossless insn value := by
  have hsigned : fitsSigned value (n + 2) = true ↔ -2 ^ (n + 1) ≤ value ∧ value < 2 ^ (n + 1) :=
    fitsSigned_iff (by omega) (by omega)
  refine lossless_of_aligned hencode hsigned hholds fun hmod ⟨hlow, hhigh⟩ => ?_
  obtain ⟨hword, hkeeps⟩ := insert_keeps hinsn (asU32 (value >>> (2 : ℕ))) hruns hfit hlt hlsb
  refine ⟨hword, hkeeps, (hreads _).mpr ?_⟩
  have hpow : (2 ^ (n + 1) : ℤ) = 4 * 2 ^ (n - 1) := by
    rw [show n + 1 = n - 1 + 2 by omega, pow_add]
    omega
  rw [bits_insert hinsn _ hfit hlt hlsb, asU32_shiftRight value 2 (by omega),
    signExtend_toNat hn (by omega) (by omega)]
  omega

theorem lossless_adr21 (hinsn : insn < 2 ^ 32) : Field.adr21.Lossless insn value := by
  refine lossless_of_fits rfl (fitsSigned_iff (by decide) (by decide)) fun ⟨hlow, hhigh⟩ => ?_
  refine ⟨insertAdr_lt hinsn value, fun i _ hout => ?_, ?_⟩
  · exact testBit_insertAdr hinsn value (hout (5, 19) (by decide)) (hout (29, 2) (by decide))
  · rw [Field.Reads, fields_insertAdr hinsn, signExtend_toNat (by decide) hlow hhigh]

theorem lossless_adrp21 (hinsn : insn < 2 ^ 32) : Field.adrp21.Lossless insn value := by
  have hencode : Field.adrp21.encode insn value =
      if value % 4096 ≠ 0 ∨ fitsSigned value 33 = false then .error {}
      else .ok (insertAdr insn (value >>> (12 : ℕ))) := by
    by_cases hmod : value % 4096 ≠ 0 <;> simp [Field.encode, hmod]
  refine lossless_of_aligned hencode (fitsSigned_iff (by decide) (by decide)) Iff.rfl
    fun hmod ⟨hlow, hhigh⟩ => ?_
  refine ⟨insertAdr_lt hinsn _, fun i _ hout => ?_, ?_⟩
  · exact testBit_insertAdr hinsn _ (hout (5, 19) (by decide)) (hout (29, 2) (by decide))
  · rw [Field.Reads, fields_insertAdr hinsn, Int.shiftRight_eq_div_pow,
      signExtend_toNat (by decide) (by omega) (by omega)]
    omega

theorem lossless_adrp21Nc (hinsn : insn < 2 ^ 32) : Field.adrp21Nc.Lossless insn value := by
  refine lossless_of_ite rfl (fun hc hv => ?_) (fun hc => ?_) fun hc => ?_
  · exact hc (Int.emod_eq_zero_of_dvd hv)
  · exact Int.dvd_of_emod_eq_zero (not_not.mp hc)
  · refine ⟨insertAdr_lt hinsn _, fun i _ hout => ?_, ?_⟩
    · exact testBit_insertAdr hinsn _ (hout (5, 19) (by decide)) (hout (29, 2) (by decide))
    · have hfields := fields_insertAdr hinsn (value >>> (12 : ℕ))
      rw [Int.shiftRight_eq_div_pow] at hfields
      rw [Field.Reads, Int.shiftRight_eq_div_pow]
      omega

/-- The twelve bits of an `add`, and of a load or a store. -/
theorem imm12_keeps (hinsn : insn < 2 ^ 32) (v : ℕ) (hruns : (10, 12) ∈ field.runs)
    (hreads : ∀ word, bits word 10 12 = v % 2 ^ 12 → field.Reads word value) :
    insert insn v 10 12 < 2 ^ 32 ∧ field.Keeps insn (insert insn v 10 12) ∧
      field.Reads (insert insn v 10 12) value := by
  obtain ⟨hword, hkeeps⟩ := insert_keeps hinsn v hruns (by decide) (by decide) (by decide)
  exact ⟨hword, hkeeps, hreads _ (bits_insert hinsn v (by decide) (by decide) (by decide))⟩

theorem lossless_add12 (hinsn : insn < 2 ^ 32) : Field.add12.Lossless insn value := by
  refine lossless_of_ite (c := False) (if_neg id).symm (fun h => h.elim) (fun _ => trivial)
    fun _ => imm12_keeps hinsn _ (by decide) fun word hbits => ?_
  rw [show 0xfff = 2 ^ 12 - 1 from rfl, Nat.and_two_pow_sub_one_eq_mod, Nat.mod_mod,
    asU32_mod (by decide)] at hbits
  rw [Field.Reads]
  omega

theorem lossless_add12Checked (hinsn : insn < 2 ^ 32) : Field.add12Checked.Lossless insn value := by
  refine lossless_of_fits rfl (fitsUnsigned_iff (by decide)) fun hv => ?_
  refine imm12_keeps hinsn _ (by decide) fun word hbits => ?_
  rw [asU32_mod (by decide)] at hbits
  rw [Field.Holds] at hv
  rw [Field.Reads]
  omega

theorem lossless_addHi12 (hinsn : insn < 2 ^ 32) : Field.addHi12.Lossless insn value := by
  refine lossless_of_fits rfl (fitsUnsigned_iff (by decide)) fun hv => ?_
  refine imm12_keeps hinsn _ (by decide) fun word hbits => ?_
  rw [asU32_shiftRight value 12 (by decide)] at hbits
  rw [Field.Holds] at hv
  rw [Field.Reads]
  omega

theorem lossless_ldSt15 (hinsn : insn < 2 ^ 32) : Field.ldSt15.Lossless insn value := by
  refine lossless_of_aligned rfl (fitsUnsigned_iff (by decide)) Iff.rfl fun hmod hv => ?_
  refine imm12_keeps hinsn _ (by decide) fun word hbits => ?_
  rw [asU32_shiftRight value 3 (by decide)] at hbits
  rw [Field.Reads]
  omega

end Fields

/-! ### Loads and stores -/

theorem ldSt_encode (insn scale : ℕ) (checked : Bool) (value : ℤ) :
    (Field.ldSt scale checked).encode insn value =
      if value % 2 ^ min scale 4 ≠ 0 ∨
          (checked = true ∧ fitsUnsigned value (min scale 4 + 12) = false) then .error {}
      else .ok (insert insn ((asU64 value &&& 0xfff) >>> min scale 4) 10 12) := by
  by_cases hmod : value % 2 ^ min scale 4 ≠ 0 <;> simp [Field.encode, hmod]

/-- The bits that a load or store gets are those of the value below bit 12. -/
theorem bits_ldSt (insn : ℕ) (scale : ℕ) (value : ℤ) (hinsn : insn < 2 ^ 32)
    (hmod : value % 2 ^ min scale 4 = 0) :
    (bits (insert insn ((asU64 value &&& 0xfff) >>> min scale 4) 10 12) 10 12 : ℤ) *
      2 ^ min scale 4 = value % 4096 := by
  rw [bits_insert hinsn _ (by decide) (by decide) (by decide), land_asU64,
    Nat.shiftRight_eq_div_pow]
  have hcases : min scale 4 = 0 ∨ min scale 4 = 1 ∨ min scale 4 = 2 ∨ min scale 4 = 3 ∨
      min scale 4 = 4 := by omega
  rcases hcases with h | h | h | h | h <;> rw [h] at hmod ⊢ <;> omega

theorem lossless_ldSt_iff {insn scale : ℕ} {checked : Bool} (hinsn : insn < 2 ^ 32) :
    (Field.ldSt scale checked).Lossless insn value ↔
      ¬(Field.ldSt scale checked).Truncates value := by
  have hrange : fitsUnsigned value (min scale 4 + 12) = true ↔
      0 ≤ value ∧ value < 2 ^ (min scale 4 + 12) := fitsUnsigned_iff (by omega)
  have hdvd : (2 : ℤ) ^ min scale 4 ∣ value ↔ value % 2 ^ min scale 4 = 0 :=
    Int.dvd_iff_emod_eq_zero
  have hword := @insert_keeps (.ldSt scale checked) _ hinsn
    ((asU64 value &&& 0xfff) >>> min scale 4) 10 12 (List.mem_singleton_self (10, 12)) (by decide)
    (by decide) (by decide)
  refine ⟨fun hlossless htrunc => ?_, fun htrunc => ?_⟩
  · cases checked with
    | false => exact htrunc
    | true =>
      obtain ⟨hmul, hge, hlt⟩ := htrunc
      have hmod := hdvd.mp hmul
      have hbits := bits_ldSt insn scale value hinsn hmod
      have hreads := (hlossless.1 _ ((ldSt_encode insn scale true value).trans (if_neg ?_))).2.2
      · rw [Field.Reads, hbits] at hreads
        omega
      · rintro (hne | ⟨-, hfits⟩)
        · exact hne hmod
        · exact Bool.false_ne_true (hfits.symm.trans (hrange.mpr ⟨by omega, hlt⟩))
  · refine lossless_of_ite (ldSt_encode insn scale checked value) (fun hc hv => ?_) (fun hc => ?_)
      fun hc => ?_
    · rcases hc with hne | ⟨hchecked, hfits⟩
      · exact hne (hdvd.mp hv.1)
      · exact Bool.false_ne_true (hfits.symm.trans (hrange.mpr (hv.2 hchecked)))
    · obtain ⟨hmod, hfits⟩ := not_or.mp hc
      refine ⟨hdvd.mpr (not_not.mp hmod), fun hchecked => hrange.mp ?_⟩
      exact Bool.eq_true_of_not_eq_false fun h => hfits ⟨hchecked, h⟩
    · obtain ⟨hmod, hfits⟩ := not_or.mp hc
      have hbits := bits_ldSt insn scale value hinsn (not_not.mp hmod)
      refine ⟨hword.1, hword.2, ?_⟩
      cases checked with
      | false => exact hbits
      | true =>
        have hv := hrange.mp (Bool.eq_true_of_not_eq_false fun h => hfits ⟨rfl, h⟩)
        have hlow : value < 2 ^ 12 := Int.not_le.mp fun hge =>
          htrunc ⟨hdvd.mpr (not_not.mp hmod), hge, hv.2⟩
        rw [Field.Reads, hbits]
        omega

/-! ### Half-words -/

section Movw

variable {insn shift : ℕ} {value : ℤ}

theorem bits_insertMovw (hinsn : insn < 2 ^ 32) :
    (bits (insertMovw insn value shift) 5 16) = asU64 value / 2 ^ shift % 2 ^ 16 := by
  rw [insertMovw, bits_insert hinsn _ (by decide) (by decide) (by decide),
    show 0xffff = 2 ^ 16 - 1 from rfl, Nat.and_two_pow_sub_one_eq_mod, Nat.mod_mod,
    Nat.shiftRight_eq_div_pow]

theorem min_shift {check : MovwCheck} (hvalid : (Field.movw shift check).Valid) :
    min shift 48 = shift := by
  rcases hvalid with rfl | rfl | rfl | rfl <;> rfl

theorem lossless_movw_none (hinsn : insn < 2 ^ 32) (hvalid : (Field.movw shift .none).Valid)
    (hlow : -2 ^ 63 ≤ value) (hhigh : value < 2 ^ 63) :
    (Field.movw shift .none).Lossless insn value := by
  have hencode : (Field.movw shift .none).encode insn value =
      if False then .error {} else .ok (insertMovw insn value shift) := by
    rw [Field.encode, min_shift hvalid]
    rfl
  have hword := @insert_keeps (.movw shift .none) _ hinsn
    (asU64 value >>> shift &&& 0xffff) 5 16 (List.mem_singleton_self (5, 16)) (by decide) (by decide)
    (by decide)
  refine lossless_of_ite hencode (fun h => h.elim) (fun _ => trivial)
    fun _ => ⟨hword.1, hword.2, ?_⟩
  rw [Field.Reads, bits_insertMovw hinsn, asU64]
  rcases hvalid with rfl | rfl | rfl | rfl <;> omega

theorem lossless_movw_unsigned (hinsn : insn < 2 ^ 32)
    (hvalid : (Field.movw shift .unsigned).Valid) (hlow : -2 ^ 63 ≤ value)
    (hhigh : value < 2 ^ 63) : (Field.movw shift .unsigned).Lossless insn value := by
  have hencode : (Field.movw shift .unsigned).encode insn value =
      if fitsUnsigned value (shift + 16) = false then .error {}
      else .ok (insertMovw insn value shift) := by
    rw [Field.encode, min_shift hvalid]
  have hrange : fitsUnsigned value (shift + 16) = true ↔
      shift = 48 ∨ 0 ≤ value ∧ value < 2 ^ (shift + 16) := by
    rcases hvalid with rfl | rfl | rfl | rfl
    · exact (fitsUnsigned_iff (by decide)).trans (by simp)
    · exact (fitsUnsigned_iff (by decide)).trans (by simp)
    · exact (fitsUnsigned_iff (by decide)).trans (by simp)
    · exact ⟨fun _ => .inl rfl, fun _ => rfl⟩
  have hword := @insert_keeps (.movw shift .unsigned) _ hinsn
    (asU64 value >>> shift &&& 0xffff) 5 16 (List.mem_singleton_self (5, 16)) (by decide) (by decide)
    (by decide)
  refine lossless_of_fits hencode hrange fun hv => ⟨hword.1, hword.2, ?_⟩
  rw [Field.Holds] at hv
  rw [Field.Reads, bits_insertMovw hinsn, asU64]
  rcases hvalid with rfl | rfl | rfl | rfl <;> omega

theorem testBit_clear30 (hinsn : insn < 2 ^ 32) {i : ℕ} (hi : i ≠ 30) :
    (insn &&& (U32_MAX - 1 <<< 30)).testBit i = insn.testBit i := by
  rw [Nat.testBit_and, show U32_MAX - 1 <<< 30 = U32_MAX - shl32 (2 ^ 1 - 1) 30 from rfl,
    testBit_mask (by decide) (by decide)]
  by_cases h32 : i < 32
  · have hout : ¬(30 ≤ i ∧ i < 30 + 1) := by omega
    rw [← Bool.decide_and, decide_eq_false hout, decide_eq_true h32]
    simp
  · rw [Nat.testBit_lt_two_pow (hinsn.trans_le (Nat.pow_le_pow_right (by decide) (by omega)))]
    simp

theorem bits_clear30 (insn : ℕ) :
    bits (insn &&& (U32_MAX - 1 <<< 30)) 29 2 = bits insn 29 2 % 2 := by
  rw [bits_and, show U32_MAX - 1 <<< 30 = 0xbfffffff from rfl, bits_ofNat,
    ← Nat.and_two_pow_sub_one_eq_mod _ 1]
  rfl

theorem opcode_insertMovw (hinsn : insn < 2 ^ 32) :
    bits (insertMovw insn value shift) 29 2 = bits insn 29 2 :=
  bits_insert_of_apart hinsn _ (by decide) (by decide) (by decide) (.inr (by decide))

/-- The word of a signed half-word. -/
def signedWord (insn : ℕ) (value : ℤ) (shift : ℕ) : ℕ :=
  if value < 0 then insertMovw (insn &&& (U32_MAX - 1 <<< 30)) (-value - 1) shift
  else insertMovw insn value shift

theorem signedWord_keeps (shift : ℕ) (value : ℤ) (hinsn : insn < 2 ^ 32) :
    signedWord insn value shift < 2 ^ 32 ∧
      (Field.movw shift .signed).Keeps insn (signedWord insn value shift) := by
  have hclear : insn &&& (U32_MAX - 1 <<< 30) < 2 ^ 32 := Nat.and_le_left.trans_lt hinsn
  have hrun : (5, 16) ∈ (Field.movw shift .signed).runs := List.mem_cons_self
  rw [signedWord]
  split
  · obtain ⟨hword, hkeeps⟩ := insert_keeps hclear (asU64 (-value - 1) >>> shift &&& 0xffff) hrun
      (by decide) (by decide) (by decide)
    refine ⟨hword, fun i hi hout => (hkeeps i hi hout).trans (testBit_clear30 hinsn ?_)⟩
    rintro rfl
    exact hout (30, 1) (List.mem_cons_of_mem _ List.mem_cons_self) (by decide)
  · exact insert_keeps hinsn _ hrun (by decide) (by decide) (by decide)

/-- What a signed half-word loads: nothing is lost, unless a `movn` is left one. -/
theorem signedWord_reads_iff (hinsn : insn < 2 ^ 32)
    (hvalid : (Field.movw shift .signed).Valid) (hlow : -2 ^ (shift + 15) ≤ value)
    (hhigh : value < 2 ^ (shift + 15)) :
    (Field.movw shift .signed).Reads (signedWord insn value shift) value ↔
      ¬(bits insn 29 2 = 0 ∧ 0 ≤ value) := by
  have hclear : insn &&& (U32_MAX - 1 <<< 30) < 2 ^ 32 := Nat.and_le_left.trans_lt hinsn
  have hop := bits_lt insn 29 2
  rw [Field.Reads, signedWord]
  by_cases hneg : value < 0
  · -- The bits of `!value`: `movn` gives the value back.
    rw [if_pos hneg, moved, opcode_insertMovw hclear, bits_clear30, bits_insertMovw hclear,
      if_neg (by omega)]
    refine iff_of_true (fun loaded hloaded => ?_) (by omega)
    obtain ⟨-, hloaded⟩ := Option.ite_none_right_eq_some.mp hloaded
    obtain rfl := Option.some.inj hloaded
    rw [asU64]
    rcases hvalid with rfl | rfl | rfl | rfl <;> omega
  · rw [if_neg hneg, moved, opcode_insertMovw hinsn, bits_insertMovw hinsn, asU64]
    by_cases hmovn : bits insn 29 2 = 0
    · refine iff_of_false (fun hreads => ?_) (by omega)
      have hloaded := hreads _ (by rw [if_neg (by omega), if_pos hmovn])
      rcases hvalid with rfl | rfl | rfl | rfl <;> omega
    · refine iff_of_true (fun loaded hloaded => ?_) (by omega)
      rw [if_neg hmovn] at hloaded
      obtain ⟨-, hloaded⟩ := Option.ite_none_right_eq_some.mp hloaded
      obtain rfl := Option.some.inj hloaded
      rcases hvalid with rfl | rfl | rfl | rfl <;> omega

theorem lossless_movw_signed_iff (hinsn : insn < 2 ^ 32)
    (hvalid : (Field.movw shift .signed).Valid) (hlow : -2 ^ 63 ≤ value)
    (hhigh : value < 2 ^ 63) :
    (Field.movw shift .signed).Lossless insn value ↔
      ¬(Field.movw shift .signed).KeepsMovn insn value := by
  have hencode : (Field.movw shift .signed).encode insn value =
      if fitsSigned value (shift + 16) = false then .error {}
      else .ok (signedWord insn value shift) := by
    rw [Field.encode, min_shift hvalid, signedWord]
    split
    · rfl
    · split <;> rfl
  have hrange : fitsSigned value (shift + 16) = true ↔
      -2 ^ (shift + 15) ≤ value ∧ value < 2 ^ (shift + 15) := by
    rcases hvalid with rfl | rfl | rfl | rfl
    · exact fitsSigned_iff (by decide) (by decide)
    · exact fitsSigned_iff (by decide) (by decide)
    · exact fitsSigned_iff (by decide) (by decide)
    · exact ⟨fun _ => ⟨hlow, hhigh⟩, fun _ => rfl⟩
  refine ⟨fun hlossless hkeeps => ?_, fun hkeeps => ?_⟩
  · obtain ⟨hmovn, hnonneg, hlt⟩ := hkeeps
    have hpow : (0 : ℤ) < 2 ^ (shift + 15) := Int.pow_pos (by decide)
    have hge : -2 ^ (shift + 15) ≤ value := by omega
    have hok := hencode.trans (if_neg (by simp [hrange.mpr ⟨hge, hlt⟩]))
    exact (signedWord_reads_iff hinsn hvalid hge hlt).mp (hlossless.1 _ hok).2.2 ⟨hmovn, hnonneg⟩
  · refine lossless_of_fits hencode hrange fun ⟨hge, hlt⟩ => ?_
    have hword := signedWord_keeps shift value hinsn
    refine ⟨hword.1, hword.2, (signedWord_reads_iff hinsn hvalid hge hlt).mpr ?_⟩
    exact fun h => hkeeps ⟨h.1, h.2, hlt⟩

end Movw

/-! ### Data -/

section Data

variable {insn : ℕ} {value : ℤ}

theorem lossless_data32 : Field.data32.Lossless insn value := by
  refine lossless_of_fits rfl (fitsEither_iff (by decide) (by decide)) fun ⟨hlow, hhigh⟩ => ?_
  refine ⟨by rw [asU32]; omega, fun i hi hout => ?_, ?_⟩
  · exact absurd ⟨Nat.zero_le i, hi⟩ (hout (0, 32) (by decide))
  · rw [Field.Reads, asU32]
    by_cases hlt : value < 2 ^ 31
    · exact .inr (signExtend_toNat (by decide) hlow hlt)
    · exact .inl (by omega)

theorem lossless_data32Signed : Field.data32Signed.Lossless insn value := by
  refine lossless_of_fits rfl (fitsSigned_iff (by decide) (by decide)) fun ⟨hlow, hhigh⟩ => ?_
  refine ⟨by rw [asU32]; omega, fun i hi hout => ?_, signExtend_toNat (by decide) hlow hhigh⟩
  exact absurd ⟨Nat.zero_le i, hi⟩ (hout (0, 32) (by decide))

theorem lossless_data16 : Field.data16.Lossless insn value := by
  have hword : asU32 value &&& 0xffff = (value % 2 ^ 16).toNat := by
    rw [show 0xffff = 2 ^ 16 - 1 from rfl, Nat.and_two_pow_sub_one_eq_mod, asU32_mod (by decide)]
  refine lossless_of_fits rfl (fitsEither_iff (by decide) (by decide)) fun ⟨hlow, hhigh⟩ => ?_
  rw [hword]
  refine ⟨by omega, fun i hi hout => ?_, ?_⟩
  · exact absurd ⟨Nat.zero_le i, hi⟩ (hout (0, 16) (by decide))
  · rw [Field.Reads]
    by_cases hlt : value < 2 ^ 15
    · exact .inr (signExtend_toNat (by decide) hlow hlt)
    · exact .inl (by omega)

end Data

/-! ### All fields -/

/-- **A field holds what it was given, or reports an overflow, in all but two cases (proved).**  A
checked load or store loses the bits from 12 on, and a signed half-word leaves a `movn` as it is. -/
theorem Field.encode_lossless_iff (field : Field) (insn : ℕ) (value : ℤ) (hinsn : insn < 2 ^ 32)
    (hlow : -2 ^ 63 ≤ value) (hhigh : value < 2 ^ 63) (hvalid : field.Valid) :
    field.Lossless insn value ↔ ¬field.Truncates value ∧ ¬field.KeepsMovn insn value := by
  have hboth (field : Field) (htrunc : ¬field.Truncates value)
      (hmovn : ¬field.KeepsMovn insn value) (h : field.Lossless insn value) :
      field.Lossless insn value ↔ ¬field.Truncates value ∧ ¬field.KeepsMovn insn value :=
    iff_of_true h ⟨htrunc, hmovn⟩
  cases field with
  | branch26 =>
    exact hboth _ id id (lossless_branch 0 26 hinsn rfl (by decide) (by decide)
      (by decide) (by decide) (by decide) Iff.rfl fun _ => Iff.rfl)
  | branch19 =>
    exact hboth _ id id (lossless_branch 5 19 hinsn rfl (by decide) (by decide)
      (by decide) (by decide) (by decide) Iff.rfl fun _ => Iff.rfl)
  | branch14 =>
    exact hboth _ id id (lossless_branch 5 14 hinsn rfl (by decide) (by decide)
      (by decide) (by decide) (by decide) Iff.rfl fun _ => Iff.rfl)
  | adr21 => exact hboth _ id id (lossless_adr21 hinsn)
  | adrp21 => exact hboth _ id id (lossless_adrp21 hinsn)
  | adrp21Nc => exact hboth _ id id (lossless_adrp21Nc hinsn)
  | add12 => exact hboth _ id id (lossless_add12 hinsn)
  | add12Checked => exact hboth _ id id (lossless_add12Checked hinsn)
  | addHi12 => exact hboth _ id id (lossless_addHi12 hinsn)
  | ldSt scale checked => exact (lossless_ldSt_iff hinsn).trans ⟨fun h => ⟨h, id⟩, fun h => h.1⟩
  | ldSt15 => exact hboth _ id id (lossless_ldSt15 hinsn)
  | movw shift check =>
    cases check with
    | none => exact hboth _ id id (lossless_movw_none hinsn hvalid hlow hhigh)
    | unsigned => exact hboth _ id id (lossless_movw_unsigned hinsn hvalid hlow hhigh)
    | signed =>
      exact (lossless_movw_signed_iff hinsn hvalid hlow hhigh).trans
        ⟨fun h => ⟨id, h⟩, fun h => h.2⟩
  | data32 => exact hboth _ id id lossless_data32
  | data32Signed => exact hboth _ id id lossless_data32Signed
  | data16 => exact hboth _ id id lossless_data16

/-- A branch backwards. -/
theorem Field.branch26_lossless : Field.branch26.Lossless 0x94000000 (-8) :=
  (Field.encode_lossless_iff .branch26 0x94000000 (-8) (by decide) (by decide) (by decide)
    trivial).mpr ⟨id, id⟩

/-- `ldr x0, [x0, #0x1008]` is in reach of the twelve scaled bits; what is written is `#8`. -/
theorem Field.ldSt_truncated :
    (Field.ldSt 3 true).encode 0xf9400000 0x1008 = .ok 0xf9400400 ∧
      (Field.ldSt 3 true).Holds 0x1008 ∧ ¬(Field.ldSt 3 true).Reads 0xf9400400 0x1008 ∧
        ¬(Field.ldSt 3 true).Lossless 0xf9400000 0x1008 := by
  have hreads : ¬(Field.ldSt 3 true).Reads 0xf9400400 0x1008 := by
    rw [Field.Reads]
    decide
  exact ⟨rfl, ⟨⟨0x201, rfl⟩, fun _ => by decide⟩, hreads, fun h => hreads (h.1 _ rfl).2.2⟩

end Qld.Arch.Aarch64
