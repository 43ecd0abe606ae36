import Qld.Arch.RiscV
import Qld.Lib.WordFields

/-!
# Fields of RISC-V instructions, read back

* `immI`, `immS`, `immB`, `immU`, `immJ`, `immCB`, `immCJ` — the immediates of the formats;
* `Layout`, `Field.layout` — the fields that take a whole value, and where they keep it;
* `ulebLength`, `ulebValue` — a ULEB128 number, of any length;
* `checkHi_iff` — the values that an upper part and a low part make up;
* `layout_patch` — what a field that takes a whole value holds;
* `writeUleb128_spec` — a ULEB128 number is replaced, and nothing else;
* `fields_lossless` — all of it, for every value and all data.
-/

namespace Qld.Arch.RiscV

open Qld.Lib
open Qld.Lib.A64 (signExtend)
open Qld.Arch.Aarch64 (U32_MAX asI64)

/-! ### Immediates -/

def immI (word : ℕ) : ℤ := signExtend 12 (bits word 20 12)

def immS (word : ℕ) : ℤ := signExtend 12 (bits word 25 7 * 2 ^ 5 + bits word 7 5)

def immB (word : ℕ) : ℤ :=
  signExtend 13 (bits word 31 1 * 2 ^ 12 + bits word 7 1 * 2 ^ 11 + bits word 25 6 * 2 ^ 5 +
    bits word 8 4 * 2)

def immU (word : ℕ) : ℤ := signExtend 32 (bits word 12 20 * 2 ^ 12)

def immJ (word : ℕ) : ℤ :=
  signExtend 21 (bits word 31 1 * 2 ^ 20 + bits word 12 8 * 2 ^ 12 + bits word 20 1 * 2 ^ 11 +
    bits word 21 10 * 2)

def immCB (half : ℕ) : ℤ :=
  signExtend 9 (bits half 12 1 * 2 ^ 8 + bits half 5 2 * 2 ^ 6 + bits half 2 1 * 2 ^ 5 +
    bits half 10 2 * 2 ^ 3 + bits half 3 2 * 2)

def immCJ (half : ℕ) : ℤ :=
  signExtend 12 (bits half 12 1 * 2 ^ 11 + bits half 8 1 * 2 ^ 10 + bits half 9 2 * 2 ^ 8 +
    bits half 6 1 * 2 ^ 7 + bits half 7 1 * 2 ^ 6 + bits half 2 1 * 2 ^ 5 + bits half 11 1 * 2 ^ 4 +
    bits half 3 3 * 2)

/-- Where an instruction keeps a whole value. -/
structure Layout where
  /-- How many bits the value has. -/
  width : ℕ
  /-- Its lowest bit is not kept. -/
  even : Bool
  /-- The register that `rs1` is set to. -/
  base : Option ℕ
  /-- The bits that change. -/
  runs : List (ℕ × ℕ)
  immediate : ℕ → ℤ

/-- The fields that take a whole value. -/
def Field.layout : Field → Option Layout
  | .branch => some ⟨13, true, none, [(7, 5), (25, 7)], immB⟩
  | .jal => some ⟨21, true, none, [(12, 20)], immJ⟩
  | .rvcBranch => some ⟨9, true, none, [(2, 5), (10, 3)], immCB⟩
  | .rvcJump => some ⟨12, true, none, [(2, 11)], immCJ⟩
  | .x0RelI => some ⟨12, false, some X0, [(15, 5), (20, 12)], immI⟩
  | .x0RelS => some ⟨12, false, some X0, [(7, 5), (15, 5), (25, 7)], immS⟩
  | .gpRelI => some ⟨12, false, some GP, [(15, 5), (20, 12)], immI⟩
  | .gpRelS => some ⟨12, false, some GP, [(7, 5), (15, 5), (25, 7)], immS⟩
  | _ => none

/-- The values that fit. -/
def Layout.Holds (layout : Layout) (value : ℤ) : Prop :=
  (-2 ^ (layout.width - 1) ≤ value ∧ value < 2 ^ (layout.width - 1)) ∧
    (layout.even = true → value % 2 = 0)

/-- What packing a value leaves of a word of `n` bits. -/
structure Layout.Kept (layout : Layout) (n insn word : ℕ) (value : ℤ) : Prop where
  lt : word < 2 ^ n
  immediate : layout.immediate word = value
  keeps : KeepsOutside layout.runs n insn word
  base : ∀ register, layout.base = some register → bits word 15 5 = register

/-! ### Parts of a value -/

@[simp] theorem bitsOf_eq (value high low : ℕ) :
    bitsOf value high low = bits value low (high - low + 1) := by
  rw [bitsOf, Nat.shiftLeft_eq, Nat.one_mul, Nat.and_two_pow_sub_one_eq_mod,
    Nat.shiftRight_eq_div_pow, bits]

theorem hi20_eq (value : ℕ) : hi20 value = (value + 0x800) % 2 ^ 64 / 2 ^ 12 % 2 ^ 20 := by
  rw [hi20, wrappingAdd, show 0xfffff = 2 ^ 20 - 1 from rfl, Nat.and_two_pow_sub_one_eq_mod,
    Nat.shiftRight_eq_div_pow]
  omega

theorem lo12_eq (value : ℕ) : lo12 value = value % 2 ^ 12 := by
  rw [lo12, show 0xfff = 2 ^ 12 - 1 from rfl, Nat.and_two_pow_sub_one_eq_mod]
  omega

/-- The sum of the two parts, as the instructions compute it. -/
def pairSum (value : ℕ) : ℤ := signExtend 32 (hi20 value * 2 ^ 12) + signExtend 12 (lo12 value)

variable {value n : ℕ}

theorem checkHi_eq_ok :
    checkHi value = .ok () ↔ -2 ^ 19 ≤ asI64 (wrappingAdd value 0x800) / 2 ^ 12 ∧
      asI64 (wrappingAdd value 0x800) / 2 ^ 12 < 2 ^ 19 := by
  have hshift (x : ℤ) : x >>> (12 : ℕ) = x / 2 ^ 12 := Int.shiftRight_eq_div_pow x 12
  have hfits (x : ℤ) : fitsSigned x 20 = true ↔ -2 ^ 19 ≤ x ∧ x < 2 ^ 19 :=
    fitsSigned_iff (by decide)
  rw [checkHi, hshift, ← hfits]
  split
  · next h => exact iff_of_true rfl h
  · next h => exact iff_of_false (fun h' => by cases h') h

/-- **The values that an upper part and a low part make up.** -/
theorem checkHi_iff (hvalue : value < 2 ^ 64) :
    checkHi value = .ok () ↔ pairSum value % 2 ^ 64 = value := by
  rw [checkHi_eq_ok, pairSum, hi20_eq, lo12_eq, signExtend, signExtend, asI64, wrappingAdd]
  split <;> split <;> omega

theorem wrap32Hi_add (value : ℕ) : ∃ wrapped : ℤ, (-2 ^ 31 ≤ wrapped ∧ wrapped < 2 ^ 31) ∧
    wrapped % 2 ^ 32 = (value + 0x800) % 2 ^ 32 ∧
      (wrap32Hi value + 0x800 : ℤ) % 2 ^ 64 = wrapped % 2 ^ 64 ∧ wrap32Hi value < 2 ^ 64 := by
  refine ⟨(((value + 0x800) % 2 ^ 64 : ℕ) + 2 ^ 31) % 2 ^ 32 - 2 ^ 31, by omega, by omega, ?_,
    Nat.mod_lt _ (by decide)⟩
  generalize hwrapped : ((((value + 0x800) % 2 ^ 64 : ℕ) + 2 ^ 31 : ℤ) % 2 ^ 32 - 2 ^ 31) = wrapped
  have hwrap : wrap32Hi value = ((wrapped % 2 ^ 64).toNat + 2 ^ 64 - 0x800) % 2 ^ 64 := by
    rw [← hwrapped]
    rfl
  rw [hwrap]
  clear hwrapped hwrap
  omega

/-- **Every value is in reach of an RV32 pair.** -/
theorem wrap32Hi_spec (value : ℕ) : checkHi (wrap32Hi value) = .ok () ∧
    pairSum (wrap32Hi value) % 2 ^ 32 = value % 2 ^ 32 := by
  obtain ⟨wrapped, hrange, hmod, hadd, hlt⟩ := wrap32Hi_add value
  generalize wrap32Hi value = x at hadd hlt ⊢
  have hcheck : checkHi x = .ok () := by
    have hsigned : asI64 (wrappingAdd x 0x800) = wrapped := by
      rw [asI64, wrappingAdd]
      omega
    rw [checkHi_eq_ok, hsigned]
    omega
  have hsum := (checkHi_iff hlt).mp hcheck
  have hlow : (x : ℤ) % 2 ^ 32 = value % 2 ^ 32 := by omega
  refine ⟨hcheck, ?_⟩
  omega

/-! ### Words -/

theorem asI64_emod (value : ℕ) (hn : n ≤ 64) : asI64 value % 2 ^ n = value % 2 ^ n := by
  have hdvd : (2 ^ n : ℤ) ∣ 2 ^ 64 := pow_dvd_pow 2 hn
  have hself : asI64 value % 2 ^ 64 = value % 2 ^ 64 := by
    rw [asI64]
    omega
  rw [← Int.emod_emod_of_dvd (asI64 value) hdvd, hself, Int.emod_emod_of_dvd _ hdvd]

/-- A value that fits is read back from its lowest bits. -/
theorem signExtend_asI64 (m n : ℕ) (hn : n = m + 1) (h64 : n ≤ 64)
    (hrange : -2 ^ m ≤ asI64 value ∧ asI64 value < 2 ^ m) :
    signExtend n (value % 2 ^ n) = asI64 value := by
  subst hn
  have hmod : (asI64 value % 2 ^ (m + 1)).toNat = value % 2 ^ (m + 1) := by
    rw [asI64_emod value h64]
    exact Int.toNat_natCast _
  rw [← hmod]
  exact signExtend_toNat (Nat.succ_pos m) hrange.1 hrange.2

theorem asI64_mod_two (value : ℕ) : asI64 value % 2 = value % 2 :=
  asI64_emod value (n := 1) (by decide)

section Words

variable {value : ℕ} (insn : ℕ)

def branchWord (value insn : ℕ) : ℕ :=
  (insn &&& 0x01fff07f) ||| bitsOf value 12 12 <<< 31 ||| bitsOf value 10 5 <<< 25 |||
    bitsOf value 4 1 <<< 8 ||| bitsOf value 11 11 <<< 7

theorem immB_branchWord (hrange : -2 ^ 12 ≤ asI64 value ∧ asI64 value < 2 ^ 12)
    (heven : asI64 value % 2 = 0) : immB (branchWord value insn) = asI64 value := by
  rw [asI64_mod_two] at heven
  have hsplit : bits value 12 1 * 2 ^ 12 + bits value 11 1 * 2 ^ 11 + bits value 5 6 * 2 ^ 5 +
      bits value 1 4 * 2 = value % 2 ^ 13 := by
    rw [mod_bits value 12 1, mod_bits value 11 1, mod_bits value 5 6, mod_bits value 1 4]
    omega
  rw [← signExtend_asI64 12 13 rfl (by decide) hrange, ← hsplit, immB]
  refine congrArg (signExtend 13) ?_
  simp [branchWord, bits_shiftLeft, bits_shiftLeft_low, bits_bits_of_le]

theorem branchWord_lt (value : ℕ) : branchWord value insn < 2 ^ 32 := by
  simp only [branchWord, bitsOf_eq]
  refine Nat.or_lt_two_pow (Nat.or_lt_two_pow (Nat.or_lt_two_pow (Nat.or_lt_two_pow ?_ ?_) ?_)
    ?_) ?_
  · exact Nat.and_lt_two_pow _ (by decide)
  all_goals exact bits_shiftLeft_lt _ _ (by decide)

theorem keeps_branchWord : KeepsOutside [(7, 5), (25, 7)] 32 insn (branchWord value insn) := by
  refine keepsOutside_of_bits [(0, 7), (12, 13)] (by decide) ?_
  simp [branchWord, bits_shiftLeft, bits_shiftLeft_low, bits_bits_of_le]

def jalWord (value insn : ℕ) : ℕ :=
  (insn &&& 0xfff) ||| bitsOf value 20 20 <<< 31 ||| bitsOf value 10 1 <<< 21 |||
    bitsOf value 11 11 <<< 20 ||| bitsOf value 19 12 <<< 12

theorem immJ_jalWord (hrange : -2 ^ 20 ≤ asI64 value ∧ asI64 value < 2 ^ 20)
    (heven : asI64 value % 2 = 0) : immJ (jalWord value insn) = asI64 value := by
  rw [asI64_mod_two] at heven
  have hsplit : bits value 20 1 * 2 ^ 20 + bits value 12 8 * 2 ^ 12 + bits value 11 1 * 2 ^ 11 +
      bits value 1 10 * 2 = value % 2 ^ 21 := by
    rw [mod_bits value 20 1, mod_bits value 12 8, mod_bits value 11 1, mod_bits value 1 10]
    omega
  rw [← signExtend_asI64 20 21 rfl (by decide) hrange, ← hsplit, immJ]
  refine congrArg (signExtend 21) ?_
  simp [jalWord, bits_shiftLeft, bits_shiftLeft_low, bits_bits_of_le]

theorem jalWord_lt (value : ℕ) : jalWord value insn < 2 ^ 32 := by
  simp only [jalWord, bitsOf_eq]
  refine Nat.or_lt_two_pow (Nat.or_lt_two_pow (Nat.or_lt_two_pow (Nat.or_lt_two_pow ?_ ?_) ?_)
    ?_) ?_
  · exact Nat.and_lt_two_pow _ (by decide)
  all_goals exact bits_shiftLeft_lt _ _ (by decide)

theorem keeps_jalWord : KeepsOutside [(12, 20)] 32 insn (jalWord value insn) := by
  refine keepsOutside_of_bits [(0, 12)] (by decide) ?_
  simp [jalWord, bits_shiftLeft_low]

def rvcBranchWord (value insn : ℕ) : ℕ :=
  (insn &&& 0xe383) ||| bitsOf value 8 8 <<< 12 ||| bitsOf value 4 3 <<< 10 |||
    bitsOf value 7 6 <<< 5 ||| bitsOf value 2 1 <<< 3 ||| bitsOf value 5 5 <<< 2

theorem immCB_rvcBranchWord (hrange : -2 ^ 8 ≤ asI64 value ∧ asI64 value < 2 ^ 8)
    (heven : asI64 value % 2 = 0) : immCB (rvcBranchWord value insn) = asI64 value := by
  rw [asI64_mod_two] at heven
  have hsplit : bits value 8 1 * 2 ^ 8 + bits value 6 2 * 2 ^ 6 + bits value 5 1 * 2 ^ 5 +
      bits value 3 2 * 2 ^ 3 + bits value 1 2 * 2 = value % 2 ^ 9 := by
    rw [mod_bits value 8 1, mod_bits value 6 2, mod_bits value 5 1, mod_bits value 3 2, mod_bits
      value 1 2]
    omega
  rw [← signExtend_asI64 8 9 rfl (by decide) hrange, ← hsplit, immCB]
  refine congrArg (signExtend 9) ?_
  simp [rvcBranchWord, bits_shiftLeft, bits_shiftLeft_low, bits_bits_of_le]

theorem rvcBranchWord_lt (value : ℕ) : rvcBranchWord value insn < 2 ^ 16 := by
  simp only [rvcBranchWord, bitsOf_eq]
  refine Nat.or_lt_two_pow (Nat.or_lt_two_pow (Nat.or_lt_two_pow (Nat.or_lt_two_pow
    (Nat.or_lt_two_pow ?_ ?_) ?_) ?_) ?_) ?_
  · exact Nat.and_lt_two_pow _ (by decide)
  all_goals exact bits_shiftLeft_lt _ _ (by decide)

theorem keeps_rvcBranchWord :
    KeepsOutside [(2, 5), (10, 3)] 16 insn (rvcBranchWord value insn) := by
  refine keepsOutside_of_bits [(0, 2), (7, 3), (13, 3)] (by decide) ?_
  simp [rvcBranchWord, bits_shiftLeft, bits_shiftLeft_low, bits_bits_of_le]

def rvcJumpWord (value insn : ℕ) : ℕ :=
  (insn &&& 0xe003) ||| bitsOf value 11 11 <<< 12 ||| bitsOf value 4 4 <<< 11 |||
    bitsOf value 9 8 <<< 9 ||| bitsOf value 10 10 <<< 8 ||| bitsOf value 6 6 <<< 7 |||
    bitsOf value 7 7 <<< 6 ||| bitsOf value 3 1 <<< 3 ||| bitsOf value 5 5 <<< 2

theorem immCJ_rvcJumpWord (hrange : -2 ^ 11 ≤ asI64 value ∧ asI64 value < 2 ^ 11)
    (heven : asI64 value % 2 = 0) : immCJ (rvcJumpWord value insn) = asI64 value := by
  rw [asI64_mod_two] at heven
  have hsplit : bits value 11 1 * 2 ^ 11 + bits value 10 1 * 2 ^ 10 + bits value 8 2 * 2 ^ 8 +
      bits value 7 1 * 2 ^ 7 + bits value 6 1 * 2 ^ 6 + bits value 5 1 * 2 ^ 5 +
      bits value 4 1 * 2 ^ 4 + bits value 1 3 * 2 = value % 2 ^ 12 := by
    rw [mod_bits value 11 1, mod_bits value 10 1, mod_bits value 8 2, mod_bits value 7 1, mod_bits
      value 6 1, mod_bits value 5 1, mod_bits value 4 1, mod_bits value 1 3]
    omega
  rw [← signExtend_asI64 11 12 rfl (by decide) hrange, ← hsplit, immCJ]
  refine congrArg (signExtend 12) ?_
  simp [rvcJumpWord, bits_shiftLeft, bits_shiftLeft_low, bits_bits_of_le]

theorem rvcJumpWord_lt (value : ℕ) : rvcJumpWord value insn < 2 ^ 16 := by
  simp only [rvcJumpWord, bitsOf_eq]
  refine Nat.or_lt_two_pow (Nat.or_lt_two_pow (Nat.or_lt_two_pow (Nat.or_lt_two_pow
    (Nat.or_lt_two_pow (Nat.or_lt_two_pow (Nat.or_lt_two_pow
      (Nat.or_lt_two_pow ?_ ?_) ?_) ?_) ?_) ?_) ?_) ?_)
    ?_
  · exact Nat.and_lt_two_pow _ (by decide)
  all_goals exact bits_shiftLeft_lt _ _ (by decide)

theorem keeps_rvcJumpWord : KeepsOutside [(2, 11)] 16 insn (rvcJumpWord value insn) := by
  refine keepsOutside_of_bits [(0, 2), (13, 3)] (by decide) ?_
  simp [rvcJumpWord, bits_shiftLeft, bits_shiftLeft_low, bits_bits_of_le]

/-- The word of an access relative to a register that is known. -/
def relWord (set : ℕ → ℕ → ℕ) (base value insn : ℕ) : ℕ := set (withRs1 insn base) (value % 2 ^ 32)

theorem base_relWordI {base : ℕ} (hbase : base < 2 ^ 5) :
    bits (relWord setLo12I base value insn) 15 5 = base := by
  have hmask : base &&& 31 = base := Nat.and_two_pow_sub_one_of_lt_two_pow hbase
  simp [relWord, setLo12I, withRs1, U32_MAX, bits_shiftLeft, bits_shiftLeft_low,
    bits_zero_of_lt hbase, hmask]

theorem base_relWordS {base : ℕ} (hbase : base < 2 ^ 5) :
    bits (relWord setLo12S base value insn) 15 5 = base := by
  have hmask : base &&& 31 = base := Nat.and_two_pow_sub_one_of_lt_two_pow hbase
  simp [relWord, setLo12S, withRs1, U32_MAX, bits_shiftLeft, bits_shiftLeft_low,
    Nat.shiftLeft_and_distrib, bits_zero_of_lt hbase, hmask]

theorem immI_relWord (base : ℕ) (hrange : -2 ^ 11 ≤ asI64 value ∧ asI64 value < 2 ^ 11) :
    immI (relWord setLo12I base value insn) = asI64 value := by
  have hlow : bits (value % 2 ^ 32) 0 12 = value % 2 ^ 12 := by
    rw [bits]
    omega
  rw [← signExtend_asI64 11 12 rfl (by decide) hrange, ← hlow, immI]
  refine congrArg (signExtend 12) ?_
  simp [relWord, setLo12I, bits_shiftLeft]

theorem keeps_relWordI (base value : ℕ) :
    KeepsOutside [(15, 5), (20, 12)] 32 insn (relWord setLo12I base value insn) := by
  refine keepsOutside_of_bits [(0, 15)] (by decide) ?_
  simp [relWord, setLo12I, withRs1, U32_MAX, bits_shiftLeft_low]

theorem immS_relWord (base : ℕ) (hrange : -2 ^ 11 ≤ asI64 value ∧ asI64 value < 2 ^ 11) :
    immS (relWord setLo12S base value insn) = asI64 value := by
  have hlow : bits (value % 2 ^ 32) 5 7 * 2 ^ 5 + bits (value % 2 ^ 32) 0 5 = value % 2 ^ 12 := by
    rw [bits, bits]
    omega
  rw [← signExtend_asI64 11 12 rfl (by decide) hrange, ← hlow, immS]
  refine congrArg (signExtend 12) ?_
  simp [relWord, setLo12S, bits_shiftLeft, bits_shiftLeft_low]

theorem keeps_relWordS (base value : ℕ) :
    KeepsOutside [(7, 5), (15, 5), (25, 7)] 32 insn (relWord setLo12S base value insn) := by
  refine keepsOutside_of_bits [(0, 7), (12, 3), (20, 5)] (by decide) ?_
  simp [relWord, setLo12S, withRs1, U32_MAX, bits_shiftLeft, bits_shiftLeft_low,
    Nat.shiftLeft_and_distrib]

end Words

/-! ### Instructions in place -/

/-- The word at the start of the data is replaced. -/
def patched (n : ℕ) (data : List UInt8) (f : ℕ → ℕ) : Except FieldError (List UInt8) :=
  (readLe n data 0).elim (.error .outOfBounds) fun insn =>
    .ok (overwrite data 0 (leBytes n (f insn)))

theorem get_put (n : ℕ) (data : List UInt8) (f : ℕ → ℕ) :
    (okOrElse (readLe n data 0) FieldError.outOfBounds >>= fun insn =>
      okOrElse (if 0 + n ≤ data.length then some (overwrite data 0 (leBytes n (f insn))) else none)
        FieldError.outOfBounds) = patched n data f := by
  rw [patched]
  cases hread : readLe n data 0 with
  | none => rfl
  | some insn =>
    obtain ⟨hlen, -⟩ := Option.ite_none_right_eq_some.mp hread
    show okOrElse (if 0 + n ≤ data.length then some _ else none) _ = _
    rw [if_pos hlen]
    rfl

theorem get_put32 (data : List UInt8) (f : ℕ → ℕ) :
    (get32 data >>= fun insn => put32 data (f insn)) = patched 4 data f :=
  get_put 4 data f

theorem get_put16 (data : List UInt8) (f : ℕ → ℕ) :
    (get16 data >>= fun insn => put16 data (f insn)) = patched 2 data f :=
  get_put 2 data f

theorem patched_ne_overflow (n : ℕ) (data : List UInt8) (f : ℕ → ℕ) :
    patched n data f ≠ .error .overflow := by
  rw [patched]
  cases readLe n data 0 with
  | none => exact fun h => by cases h
  | some insn => exact fun h => by cases h

variable {data data' : List UInt8}

theorem patched_eq_ok {f : ℕ → ℕ} (h : patched n data f = .ok data') :
    ∃ insn, readLe n data 0 = some insn ∧ data' = overwrite data 0 (leBytes n (f insn)) := by
  rw [patched] at h
  cases hread : readLe n data 0 with
  | none =>
    rw [hread] at h
    cases h
  | some insn =>
    rw [hread] at h
    exact ⟨insn, rfl, (Except.ok.inj h).symm⟩

variable {α : Type}

theorem check_bind {m : ℕ} (hn : n = m + 1) (h64 : n < 64) (x : Except FieldError α) :
    (check value n >>= fun _ => x) =
      if -2 ^ m ≤ asI64 value ∧ asI64 value < 2 ^ m then x else .error .overflow := by
  subst hn
  have hfits : fitsSigned (asI64 value) (m + 1) = true ↔
      -2 ^ m ≤ asI64 value ∧ asI64 value < 2 ^ m :=
    fitsSigned_iff h64
  rw [check]
  simp only [← hfits]
  split <;> rfl

theorem aligned_bind (value : ℕ) (x : Except FieldError α) :
    (aligned value >>= fun _ => x) = if asI64 value % 2 = 0 then x else .error .overflow := by
  have heven : asI64 value % 2 = 0 ↔ value &&& 1 = 0 := by
    rw [asI64_mod_two, Nat.and_one_is_mod]
    omega
  rw [aligned]
  simp only [heven]
  split <;> rfl

/-- What a field with a layout makes of the data. -/
structure Layout.Patches (layout : Layout) (n : ℕ) (data : List UInt8) (value : ℕ)
    (result : Except FieldError (List UInt8)) : Prop where
  overflow : result = .error .overflow ↔ ¬layout.Holds (asI64 value)
  ok : ∀ data', result = .ok data' → ∃ insn word, readLe n data 0 = some insn ∧
    data' = overwrite data 0 (leBytes n word) ∧ layout.Kept (8 * n) insn word (asI64 value)

theorem patches_of_ite {layout : Layout} {result : Except FieldError (List UInt8)} {c : Prop}
    [Decidable c] (f : ℕ → ℕ) (hresult : result = if c then patched n data f else .error .overflow)
    (hholds : c ↔ layout.Holds (asI64 value))
    (hkept : ∀ insn < 2 ^ (8 * n), layout.Holds (asI64 value) →
      layout.Kept (8 * n) insn (f insn) (asI64 value)) : layout.Patches n data value result := by
  by_cases hc : c
  · rw [if_pos hc] at hresult
    refine ⟨iff_of_false (hresult ▸ patched_ne_overflow n data f) (not_not.mpr (hholds.mp hc)), ?_⟩
    intro data' h
    obtain ⟨insn, hread, rfl⟩ := patched_eq_ok (hresult.symm.trans h)
    exact ⟨insn, _, hread, rfl, hkept insn (readLe_lt hread) (hholds.mp hc)⟩
  · rw [if_neg hc] at hresult
    refine ⟨iff_of_true hresult fun h => hc (hholds.mpr h), fun data' h => ?_⟩
    cases hresult.symm.trans h

theorem check_aligned_bind {m : ℕ} (hn : n = m + 1) (h64 : n < 64) (x : Except FieldError α) :
    (check value n >>= fun _ => aligned value >>= fun _ => x) =
      if (-2 ^ m ≤ asI64 value ∧ asI64 value < 2 ^ m) ∧ asI64 value % 2 = 0 then x
      else .error .overflow := by
  rw [check_bind hn h64, aligned_bind]
  by_cases hrange : -2 ^ m ≤ asI64 value ∧ asI64 value < 2 ^ m
  · simp only [hrange, and_self, true_and, if_true]
  · simp only [hrange, false_and, if_false]

section Patches

variable {layout : Layout} {m n : ℕ} {data : List UInt8} {value : ℕ}
  {result : Except FieldError (List UInt8)} {f : ℕ → ℕ}

theorem patches_even (hwidth : layout.width = m + 1) (heven : layout.even = true)
    (h64 : layout.width < 64)
    (hresult : result = (check value layout.width >>= fun _ => aligned value >>= fun _ =>
      patched n data f))
    (hkept : ∀ insn < 2 ^ (8 * n), -2 ^ m ≤ asI64 value ∧ asI64 value < 2 ^ m →
      asI64 value % 2 = 0 → layout.Kept (8 * n) insn (f insn) (asI64 value)) :
    layout.Patches n data value result := by
  have hholds : (-2 ^ m ≤ asI64 value ∧ asI64 value < 2 ^ m) ∧ asI64 value % 2 = 0 ↔
      layout.Holds (asI64 value) := by
    rw [Layout.Holds, hwidth, heven, Nat.add_sub_cancel]
    exact and_congr_right fun _ => ⟨fun h _ => h, fun h => h rfl⟩
  refine patches_of_ite f (hresult.trans (check_aligned_bind hwidth h64 _)) hholds ?_
  intro insn hinsn h
  obtain ⟨hrange, hmod⟩ := hholds.mpr h
  exact hkept insn hinsn hrange hmod

theorem patches_branch : Layout.Patches ⟨13, true, none, [(7, 5), (25, 7)], immB⟩ 4 data value
    (Field.branch.patch data value) := by
  refine @patches_even _ 12 4 data value _ (branchWord value) rfl rfl (by decide) ?_ ?_
  · rw [← get_put32]
    rfl
  · exact fun insn _ hrange heven => ⟨branchWord_lt insn value, immB_branchWord insn hrange heven,
      keeps_branchWord insn, fun _ h => by cases h⟩

theorem patches_jal : Layout.Patches ⟨21, true, none, [(12, 20)], immJ⟩ 4 data value
    (Field.jal.patch data value) := by
  refine @patches_even _ 20 4 data value _ (jalWord value) rfl rfl (by decide) ?_ ?_
  · rw [← get_put32]
    rfl
  · exact fun insn _ hrange heven => ⟨jalWord_lt insn value, immJ_jalWord insn hrange heven,
      keeps_jalWord insn, fun _ h => by cases h⟩

theorem patches_rvcBranch : Layout.Patches ⟨9, true, none, [(2, 5), (10, 3)], immCB⟩ 2 data value
    (Field.rvcBranch.patch data value) := by
  refine @patches_even _ 8 2 data value _ (rvcBranchWord value) rfl rfl (by decide) ?_ ?_
  · rw [← get_put16]
    rfl
  · exact fun insn _ hrange heven => ⟨rvcBranchWord_lt insn value,
      immCB_rvcBranchWord insn hrange heven, keeps_rvcBranchWord insn, fun _ h => by cases h⟩

theorem patches_rvcJump : Layout.Patches ⟨12, true, none, [(2, 11)], immCJ⟩ 2 data value
    (Field.rvcJump.patch data value) := by
  refine @patches_even _ 11 2 data value _ (rvcJumpWord value) rfl rfl (by decide) ?_ ?_
  · rw [← get_put16]
    rfl
  · exact fun insn _ hrange heven => ⟨rvcJumpWord_lt insn value,
      immCJ_rvcJumpWord insn hrange heven, keeps_rvcJumpWord insn, fun _ h => by cases h⟩

theorem patches_rel {base : ℕ} {set : ℕ → ℕ → ℕ} (hwidth : layout.width = 12)
    (heven : layout.even = false) (hresult : result = applyRel data value base set)
    (hkept : ∀ insn < 2 ^ 32, -2 ^ 11 ≤ asI64 value ∧ asI64 value < 2 ^ 11 →
      layout.Kept 32 insn (relWord set base value insn) (asI64 value)) :
    layout.Patches 4 data value result := by
  have hholds : -2 ^ 11 ≤ asI64 value ∧ asI64 value < 2 ^ 11 ↔ layout.Holds (asI64 value) := by
    rw [Layout.Holds, hwidth, heven]
    exact ⟨fun h => ⟨h, fun hf => by cases hf⟩, fun h => h.1⟩
  have happly : applyRel data value base set =
      check value 12 >>= fun _ => patched 4 data (relWord set base value) := by
    rw [← get_put32]
    rfl
  rw [check_bind (m := 11) rfl (by decide)] at happly
  exact patches_of_ite _ (hresult.trans happly) hholds fun insn hinsn h =>
    hkept insn hinsn (hholds.mpr h)

theorem relWordI_lt (base value insn : ℕ) : relWord setLo12I base value insn < 2 ^ 32 :=
  Nat.or_lt_two_pow (Nat.and_lt_two_pow _ (by decide)) (land_shiftLeft_lt _ (by decide))

theorem relWordS_lt (base value insn : ℕ) : relWord setLo12S base value insn < 2 ^ 32 :=
  Nat.or_lt_two_pow (Nat.or_lt_two_pow (Nat.and_lt_two_pow _ (by decide))
    (land_shiftLeft_lt _ (by decide))) (land_shiftLeft_lt _ (by decide))

theorem patches_relI {base : ℕ} (hbase : base < 2 ^ 5) :
    Layout.Patches ⟨12, false, some base, [(15, 5), (20, 12)], immI⟩ 4 data value
      (applyRel data value base setLo12I) :=
  patches_rel rfl rfl rfl fun insn _ hrange => ⟨relWordI_lt base value insn,
    immI_relWord insn base hrange, keeps_relWordI insn base value,
    fun _ h => (base_relWordI insn hbase).trans (Option.some.inj h)⟩

theorem patches_relS {base : ℕ} (hbase : base < 2 ^ 5) :
    Layout.Patches ⟨12, false, some base, [(7, 5), (15, 5), (25, 7)], immS⟩ 4 data value
      (applyRel data value base setLo12S) :=
  patches_rel rfl rfl rfl fun insn _ hrange => ⟨relWordS_lt base value insn,
    immS_relWord insn base hrange, keeps_relWordS insn base value,
    fun _ h => (base_relWordS insn hbase).trans (Option.some.inj h)⟩

end Patches

/-- **What a field that takes a whole value holds.** -/
theorem layout_patch {field : Field} {layout : Layout} (hlayout : field.layout = some layout)
    (data : List UInt8) (value : ℕ) :
    layout.Patches field.bytes data value (field.patch data value) := by
  cases field <;> cases hlayout
  · exact patches_relI (by decide)
  · exact patches_relS (by decide)
  · exact patches_relI (by decide)
  · exact patches_relS (by decide)
  · exact patches_branch
  · exact patches_jal
  · exact patches_rvcBranch
  · exact patches_rvcJump

/-! ### Upper parts -/

/-- The word of a `lui` or `auipc`. -/
def upperWord (value insn : ℕ) : ℕ := (insn &&& 0xfff) ||| hi20 value <<< 12

theorem hi20_lt (value : ℕ) : hi20 value < 2 ^ 20 := Nat.and_lt_two_pow _ (by decide)

theorem upperWord_lt (value insn : ℕ) : upperWord value insn < 2 ^ 32 := by
  refine Nat.or_lt_two_pow (Nat.and_lt_two_pow _ (by decide)) ?_
  have := hi20_lt value
  rw [Nat.shiftLeft_eq]
  omega

theorem keeps_upperWord (value insn : ℕ) :
    KeepsOutside [(12, 20)] 32 insn (upperWord value insn) := by
  refine keepsOutside_of_bits [(0, 12)] (by decide) ?_
  simp [upperWord, bits_shiftLeft_low]

theorem immU_upperWord (value insn : ℕ) :
    immU (upperWord value insn) = signExtend 32 (hi20 value * 2 ^ 12) := by
  rw [immU]
  refine congrArg (fun n => signExtend 32 (n * 2 ^ 12)) ?_
  simp [upperWord, bits_shiftLeft, bits_zero_of_lt (hi20_lt value)]

/-- The word of the instruction that completes the value. -/
theorem lowerWord_spec (value insn : ℕ) : setLo12I insn (lo12 value) < 2 ^ 32 ∧
    KeepsOutside [(20, 12)] 32 insn (setLo12I insn (lo12 value)) ∧
      immI (setLo12I insn (lo12 value)) = signExtend 12 (lo12 value) := by
  have hlt : lo12 value < 2 ^ 12 := Nat.and_lt_two_pow _ (by decide)
  refine ⟨?_, keepsOutside_of_bits [(0, 20)] (by decide) ?_, ?_⟩
  · exact Nat.or_lt_two_pow (Nat.and_lt_two_pow _ (by decide)) (land_shiftLeft_lt _ (by decide))
  · simp [setLo12I, bits_shiftLeft_low]
  · rw [immI]
    refine congrArg (signExtend 12) ?_
    have hmask : lo12 value &&& 0xfff = lo12 value := Nat.and_two_pow_sub_one_of_lt_two_pow hlt
    simp [setLo12I, bits_shiftLeft, bits_zero_of_lt hlt, hmask]

theorem checkHi_bind_eq_ok {x : Except FieldError α} {a : α}
    (h : (checkHi value >>= fun _ => x) = .ok a) : checkHi value = .ok () ∧ x = .ok a := by
  obtain ⟨_, hcheck, h⟩ := bind_eq_ok.mp h
  exact ⟨hcheck, h⟩

/-- **An upper part.** -/
theorem hi20_patch (hvalue : value < 2 ^ 64) (h : Field.hi20.patch data value = .ok data') :
    ∃ insn word, readLe 4 data 0 = some insn ∧ data' = overwrite data 0 (leBytes 4 word) ∧
      word < 2 ^ 32 ∧ KeepsOutside [(12, 20)] 32 insn word ∧
        (immU word + signExtend 12 (lo12 value)) % 2 ^ 64 = value := by
  have hsteps : Field.hi20.patch data value =
      checkHi value >>= fun _ => patched 4 data (upperWord value) := by
    rw [← get_put32]
    rfl
  obtain ⟨hcheck, h⟩ := checkHi_bind_eq_ok (hsteps.symm.trans h)
  obtain ⟨insn, hread, rfl⟩ := patched_eq_ok h
  refine ⟨insn, _, hread, rfl, upperWord_lt value insn, keeps_upperWord value insn, ?_⟩
  rw [immU_upperWord]
  exact (checkHi_iff hvalue).mp hcheck

/-- **A call.** -/
theorem call_patch (hvalue : value < 2 ^ 64) (h : Field.call.patch data value = .ok data') :
    ∃ auipc jalr upper lower, readLe 4 data 0 = some auipc ∧ readLe 4 data 4 = some jalr ∧
      data' = overwrite (overwrite data 0 (leBytes 4 upper)) 4 (leBytes 4 lower) ∧
        upper < 2 ^ 32 ∧ lower < 2 ^ 32 ∧ KeepsOutside [(12, 20)] 32 auipc upper ∧
          KeepsOutside [(20, 12)] 32 jalr lower ∧ (immU upper + immI lower) % 2 ^ 64 = value := by
  obtain ⟨hcheck, h⟩ := checkHi_bind_eq_ok h
  obtain ⟨auipc, hauipc, h⟩ := bind_eq_ok.mp h
  obtain ⟨jalr, hjalr, h⟩ := bind_eq_ok.mp h
  obtain ⟨data₁, hput, h⟩ := bind_eq_ok.mp h
  have hput := okOrElse_eq_ok.mp hput
  have h := okOrElse_eq_ok.mp h
  obtain ⟨-, hput⟩ := Option.ite_none_right_eq_some.mp hput
  obtain ⟨-, h⟩ := Option.ite_none_right_eq_some.mp h
  obtain rfl := Option.some.inj hput
  obtain ⟨hlt, hkeeps, himm⟩ := lowerWord_spec value jalr
  refine ⟨auipc, jalr, upperWord value auipc, _, okOrElse_eq_ok.mp hauipc, okOrElse_eq_ok.mp hjalr,
    (Option.some.inj h).symm, upperWord_lt value auipc, hlt, keeps_upperWord value auipc, hkeeps,
    ?_⟩
  rw [immU_upperWord, himm]
  exact (checkHi_iff hvalue).mp hcheck

/-! ### ULEB128 -/

/-- How many bytes the number at the start of the data has. -/
def ulebLength (data : List UInt8) : Option ℕ :=
  (data.findIdx? fun byte => byte.toNat < 128).map (· + 1)

/-- The number at the start of the data. -/
def ulebValue : List UInt8 → ℕ
  | [] => 0
  | byte :: data => if byte.toNat < 128 then byte.toNat else byte.toNat - 128 + 128 * ulebValue data

theorem ulebLength_cons (byte : UInt8) (data : List UInt8) : ulebLength (byte :: data) =
    if byte.toNat < 128 then some 1 else (ulebLength data).map (· + 1) := by
  rw [ulebLength, List.findIdx?_cons]
  by_cases hlast : byte.toNat < 128
  · rw [if_pos (decide_eq_true hlast), if_pos hlast]
    rfl
  · rw [if_neg (by rwa [decide_eq_true_iff]), if_neg hlast, ulebLength]

theorem more_iff (byte : UInt8) : byte.toNat &&& 0x80 ≠ 0 ↔ ¬byte.toNat < 128 := by
  have hlt := byte.toNat_lt
  rw [show 0x80 = 2 ^ 7 from rfl, land_two_pow_ne_zero, bits]
  omega

theorem toNat_more (rest : ℕ) :
    (UInt8.ofNat (rest &&& 0x7f ||| 0x80)).toNat = rest % 128 + 128 := by
  have hlow : rest &&& 0x7f = rest % 128 := Nat.and_two_pow_sub_one_eq_mod rest 7
  have hor : rest % 128 ||| 1 <<< 7 = rest % 128 + 1 * 2 ^ 7 := or_shiftLeft 1 (by omega)
  rw [hlow, show rest % 128 ||| 0x80 = _ from hor, UInt8.toNat_ofNat']
  omega

theorem toNat_last (rest : ℕ) : (UInt8.ofNat (rest &&& 0x7f)).toNat = rest % 128 := by
  have hlow : rest &&& 0x7f = rest % 128 := Nat.and_two_pow_sub_one_eq_mod rest 7
  rw [hlow, UInt8.toNat_ofNat']
  omega

/-- What writing a number over another leaves. -/
structure Overwritten (data : List UInt8) (value : ℕ)
    (after : Except FieldError Bool × List UInt8) : Prop where
  length : after.2.length = data.length
  number : ulebLength after.2 = ulebLength data
  none : ulebLength data = none → after.1 = .error .outOfBounds
  some : ∀ n, ulebLength data = some n → after.1 = .ok (decide (value < 2 ^ (7 * n))) ∧
    after.2.drop n = data.drop n ∧ ulebValue after.2 = value % 2 ^ (7 * n)

/-- **A number is replaced, and nothing else.** -/
theorem overwriteUleb128_spec (data : List UInt8) (value : ℕ) :
    Overwritten data value (overwriteUleb128 data value) := by
  induction data generalizing value with
  | nil => exact ⟨rfl, rfl, fun _ => rfl, fun n h => by cases h⟩
  | cons byte data ih =>
    rw [overwriteUleb128]
    by_cases hmore : byte.toNat &&& 0x80 ≠ 0
    · have hge := (more_iff byte).mp hmore
      have hih := ih (value >>> 7)
      have hbyte := toNat_more value
      rw [if_pos hmore]
      refine ⟨congrArg (· + 1) hih.length, ?_, fun h => hih.none ?_, fun n h => ?_⟩
      · show ulebLength (_ :: _) = _
        rw [ulebLength_cons, ulebLength_cons, if_neg (by omega), if_neg hge, hih.number]
      · rw [ulebLength_cons, if_neg hge, Option.map_eq_none_iff] at h
        exact h
      · rw [ulebLength_cons, if_neg hge, Option.map_eq_some_iff] at h
        obtain ⟨m, hm, rfl⟩ := h
        obtain ⟨hfits, hrest, hnumber⟩ := hih.some m hm
        have hpow : 2 ^ (7 * (m + 1)) = 128 * 2 ^ (7 * m) := by
          rw [Nat.mul_succ, Nat.pow_add, Nat.mul_comm]
        refine ⟨?_, hrest, ?_⟩
        · show (overwriteUleb128 data (value >>> 7)).1 = _
          rw [hfits, Nat.shiftRight_eq_div_pow, hpow]
          congr 2
          rw [eq_iff_iff, Nat.div_lt_iff_lt_mul (by decide), Nat.mul_comm]
        · show ulebValue (_ :: _) = _
          rw [ulebValue, if_neg (by omega), hnumber, hbyte, hpow, Nat.mod_mul,
            Nat.shiftRight_eq_div_pow, Nat.add_sub_cancel]
    · have hlt : byte.toNat < 128 := not_not.mp fun h => hmore ((more_iff byte).mpr h)
      have hbyte := toNat_last value
      rw [if_neg hmore]
      refine ⟨rfl, ?_, fun h => ?_, fun n h => ?_⟩
      · show ulebLength (_ :: _) = _
        rw [ulebLength_cons, ulebLength_cons, if_pos (by omega), if_pos hlt]
      · rw [ulebLength_cons, if_pos hlt] at h
        cases h
      · rw [ulebLength_cons, if_pos hlt] at h
        obtain rfl := Option.some.inj h
        refine ⟨?_, rfl, ?_⟩
        · show Except.ok (decide (value >>> 7 = 0)) = _
          rw [Nat.shiftRight_eq_div_pow]
          congr 2
          rw [eq_iff_iff]
          omega
        · show ulebValue (_ :: _) = _
          rw [ulebValue, if_pos (by omega), hbyte]
          rfl

/-- The bits of a byte, above those that were read. -/
theorem readUleb_bits {pos shift x : ℕ} (low : ℕ) (hx : x < 2 ^ pos)
    (hshift : shift = pos ∨ 64 ≤ shift ∧ 64 ≤ pos) :
    (if shift < 64 then x % 2 ^ 64 ||| low <<< shift % 2 ^ 64 else x % 2 ^ 64) =
      (x + low * 2 ^ pos) % 2 ^ 64 := by
  by_cases hlt : shift < 64
  · obtain rfl : shift = pos := by omega
    rw [if_pos hlt, ← Nat.or_mod_two_pow, or_shiftLeft low hx]
  · obtain ⟨k, rfl⟩ := Nat.exists_eq_add_of_le (show 64 ≤ pos by omega)
    rw [if_neg hlt, Nat.pow_add, Nat.mul_left_comm, Nat.add_mul_mod_self_left]

theorem readUlebFrom_eq : ∀ {n pos shift x : ℕ}, ulebLength data = some n →
    x < 2 ^ pos → (shift = pos ∨ 64 ≤ shift ∧ 64 ≤ pos) →
      readUlebFrom data shift (x % 2 ^ 64) = .ok ((x + ulebValue data * 2 ^ pos) % 2 ^ 64) := by
  induction data with
  | nil => exact fun h => by cases h
  | cons byte data ih =>
    intro n pos shift x hn hx hshift
    have hlow : byte.toNat &&& 0x7f = byte.toNat % 128 := Nat.and_two_pow_sub_one_eq_mod _ 7
    have hmore := more_iff byte
    rw [readUlebFrom, hlow]
    simp only [readUleb_bits _ hx hshift]
    rw [ulebLength_cons] at hn
    by_cases hlast : byte.toNat < 128
    · rw [if_pos (by_contra fun h => hmore.mp h hlast), ulebValue, if_pos hlast,
        Nat.mod_eq_of_lt hlast]
    · rw [if_neg hlast, Option.map_eq_some_iff] at hn
      obtain ⟨m, hm, -⟩ := hn
      have hbyte := byte.toNat_lt
      have hpow : 2 ^ (pos + 7) = 128 * 2 ^ pos := by rw [Nat.pow_add, Nat.mul_comm]
      have hx' : x + byte.toNat % 128 * 2 ^ pos < 2 ^ (pos + 7) := by
        have hle : byte.toNat % 128 * 2 ^ pos ≤ 127 * 2 ^ pos := Nat.mul_le_mul_right _ (by omega)
        omega
      rw [if_neg (hmore.mpr hlast), ih hm hx' (by rw [U32_MAX]; omega), ulebValue, if_neg hlast,
        hpow]
      congr 2
      rw [show byte.toNat % 128 = byte.toNat - 128 by omega, Nat.add_mul, Nat.add_assoc]
      congr 2
      rw [Nat.mul_left_comm, Nat.mul_assoc]

theorem readUleb128_eq (hn : ulebLength data = some n) :
    readUleb128 data = .ok (ulebValue data % 2 ^ 64) := by
  have hread := readUlebFrom_eq hn (show 0 < 2 ^ 0 by decide) (.inl rfl)
  rwa [Nat.zero_add, Nat.pow_zero, Nat.mul_one] at hread

theorem readUlebFrom_eq_error (hn : ulebLength data = none) (shift x : ℕ) :
    readUlebFrom data shift x = .error .outOfBounds := by
  induction data generalizing shift x with
  | nil => rfl
  | cons byte data ih =>
    rw [ulebLength_cons] at hn
    split at hn
    · cases hn
    · next hmore =>
      rw [readUlebFrom, if_neg ((more_iff byte).mpr hmore)]
      exact ih (Option.map_eq_none_iff.mp hn) _ _

/-- A ULEB128 field, written: the number keeps its length, and nothing after it changes. -/
structure Rewritten (data : List UInt8) (value : ℕ) (after : Except FieldError Unit × List UInt8) :
    Prop where
  length : after.2.length = data.length
  number : ulebLength after.2 = ulebLength data
  rest : ∀ n, ulebLength data = some n → after.2.drop n = data.drop n
  ok : after.1 = .ok () → readUleb128 after.2 = .ok value ∧ ulebValue after.2 = value
  overflow : after.1 = .error .overflow ↔ ∃ n, ulebLength data = some n ∧ 2 ^ (7 * n) ≤ value
  outOfBounds : after.1 = .error .outOfBounds ↔ ulebLength data = none

/-- **A ULEB128 number is replaced, and nothing else.** -/
theorem writeUleb128_spec (data : List UInt8) (hvalue : value < 2 ^ 64) :
    Rewritten data value (writeUleb128 data value) := by
  have hspec := overwriteUleb128_spec data value
  cases hn : ulebLength data with
  | none =>
    have hresult : (writeUleb128 data value).1 = .error .outOfBounds := by
      rw [writeUleb128, hspec.none hn]
      rfl
    refine ⟨hspec.length, hspec.number, fun n h => ?_, fun h => ?_, ?_, iff_of_true hresult hn⟩
    · cases hn.symm.trans h
    · cases hresult.symm.trans h
    · rw [hresult]
      refine iff_of_false (fun h => by cases h) ?_
      rintro ⟨n, h, -⟩
      cases hn.symm.trans h
  | some n =>
    obtain ⟨hfits, hrest, hnumber⟩ := hspec.some n hn
    have hresult : (writeUleb128 data value).1 =
        if value < 2 ^ (7 * n) then .ok () else .error .overflow := by
      rw [writeUleb128, hfits]
      simp only [Except.bind, decide_eq_true_eq]
    have hlength : ulebLength (writeUleb128 data value).2 = some n := hspec.number.trans hn
    refine ⟨hspec.length, hspec.number, fun m hm => ?_, fun h => ?_, ?_, ?_⟩
    · obtain rfl := Option.some.inj (hn.symm.trans hm)
      exact hrest
    · rw [hresult] at h
      split at h
      · next hlt =>
        have hvalue' : ulebValue (writeUleb128 data value).2 = value :=
          hnumber.trans (Nat.mod_eq_of_lt hlt)
        refine ⟨?_, hvalue'⟩
        rw [readUleb128_eq hlength, hvalue', Nat.mod_eq_of_lt hvalue]
      · cases h
    · rw [hresult, hn]
      simp only [Option.some.injEq, exists_eq_left']
      split
      · next hlt => exact iff_of_false (fun h => by cases h) (Nat.not_le.mpr hlt)
      · next hge => exact iff_of_true rfl (Nat.le_of_not_lt hge)
    · rw [hresult, hn]
      split
      · exact iff_of_false (fun h => by cases h) fun h => by cases h
      · exact iff_of_false (fun h => by cases h) fun h => by cases h

/-! ### All fields -/

section Apply

variable {field : Field} {data : List UInt8} {value : ℕ}

theorem apply_eq (hset : field ≠ .setUleb128) (hsub : field ≠ .subUleb128) :
    field.apply data value = ((field.patch data value).map fun _ => (),
      (field.patch data value).toOption.getD data) := by
  rw [Field.apply.eq_def]
  split
  · exact absurd rfl hset
  · exact absurd rfl hsub
  · cases field.patch data value with
    | error e => rfl
    | ok patched => rfl

theorem patch_of_apply (hset : field ≠ .setUleb128) (hsub : field ≠ .subUleb128)
    (h : (field.apply data value).1 = .ok ()) :
    field.patch data value = .ok (field.apply data value).2 := by
  rw [apply_eq hset hsub] at h ⊢
  obtain ⟨patched, hpatch, -⟩ := map_eq_ok.mp h
  rw [hpatch]
  rfl

/-- What a field with a layout makes of the data. -/
structure Layout.Applies (layout : Layout) (n : ℕ) (data : List UInt8) (value : ℕ)
    (after : Except FieldError Unit × List UInt8) : Prop where
  overflow : after.1 = .error .overflow ↔ ¬layout.Holds (asI64 value)
  ok : after.1 = .ok () → ∃ insn word, readLe n data 0 = some insn ∧
    after.2 = overwrite data 0 (leBytes n word) ∧ layout.Kept (8 * n) insn word (asI64 value)

theorem layout_apply {layout : Layout} (hlayout : field.layout = some layout) :
    layout.Applies field.bytes data value (field.apply data value) := by
  have hset : field ≠ .setUleb128 := by
    rintro rfl
    cases hlayout
  have hsub : field ≠ .subUleb128 := by
    rintro rfl
    cases hlayout
  have hpatches := layout_patch hlayout data value
  refine ⟨?_, fun h => hpatches.ok _ (patch_of_apply hset hsub h)⟩
  rw [apply_eq hset hsub, ← hpatches.overflow]
  cases hpatch : field.patch data value with
  | error e =>
    exact ⟨fun h => congrArg _ (Except.error.inj h), fun h => congrArg _ (Except.error.inj h)⟩
  | ok patched => exact iff_of_false (fun h => by cases h) fun h => by cases h

/-- The word of an upper part that was packed. -/
def HiApplied (data : List UInt8) (value : ℕ) (after : List UInt8) : Prop :=
  ∃ insn word, readLe 4 data 0 = some insn ∧ after = overwrite data 0 (leBytes 4 word) ∧
    word < 2 ^ 32 ∧ KeepsOutside [(12, 20)] 32 insn word ∧
      (immU word + signExtend 12 (lo12 value)) % 2 ^ 64 = value

/-- The two words of a call that was packed. -/
def CallApplied (data : List UInt8) (value : ℕ) (after : List UInt8) : Prop :=
  ∃ auipc jalr upper lower, readLe 4 data 0 = some auipc ∧ readLe 4 data 4 = some jalr ∧
    after = overwrite (overwrite data 0 (leBytes 4 upper)) 4 (leBytes 4 lower) ∧
      upper < 2 ^ 32 ∧ lower < 2 ^ 32 ∧ KeepsOutside [(12, 20)] 32 auipc upper ∧
        KeepsOutside [(20, 12)] 32 jalr lower ∧ (immU upper + immI lower) % 2 ^ 64 = value

theorem subUleb128_apply {old : ℕ} (h : readUleb128 data = .ok old) :
    Rewritten data (wrappingSub old value) (Field.subUleb128.apply data value) := by
  have happly : Field.subUleb128.apply data value = writeUleb128 data (wrappingSub old value) := by
    rw [Field.apply, h]
  rw [happly]
  exact writeUleb128_spec data (Nat.mod_lt _ (Nat.two_pow_pos 64))

end Apply

/-- **Fields encode losslessly (proved).** -/
theorem fields_lossless (data : List UInt8) (value : ℕ) (hvalue : value < 2 ^ 64) :
    (checkHi value = .ok () ↔ pairSum value % 2 ^ 64 = value) ∧
    ((Field.hi20.apply data value).1 = .ok () →
      HiApplied data value (Field.hi20.apply data value).2) ∧
    ((Field.call.apply data value).1 = .ok () →
      CallApplied data value (Field.call.apply data value).2) ∧
    (checkHi (wrap32Hi value) = .ok () ∧ pairSum (wrap32Hi value) % 2 ^ 32 = value % 2 ^ 32) ∧
    (∀ (field : Field) (layout : Layout), field.layout = some layout →
      layout.Applies field.bytes data value (field.apply data value)) ∧
    Rewritten data value (Field.setUleb128.apply data value) ∧
    (∀ old, readUleb128 data = .ok old →
      Rewritten data (wrappingSub old value) (Field.subUleb128.apply data value)) ∧
    (ulebLength data = none → Field.subUleb128.apply data value = (.error .outOfBounds, data)) := by
  refine ⟨checkHi_iff hvalue, fun h => ?_, fun h => ?_, wrap32Hi_spec value, ?_,
    writeUleb128_spec data hvalue, fun old h => subUleb128_apply h, fun h => ?_⟩
  · exact hi20_patch hvalue (patch_of_apply (by decide) (by decide) h)
  · exact call_patch hvalue (patch_of_apply (by decide) (by decide) h)
  · exact fun field layout hlayout => layout_apply hlayout
  · rw [Field.apply, readUleb128, readUlebFrom_eq_error h]

/-- A `lui` of an address that rounds up. -/
theorem hi20_lossless : HiApplied [0x37, 0x05, 0, 0] 0x12345978
    (Field.hi20.apply [0x37, 0x05, 0, 0] 0x12345978).2 :=
  (fields_lossless [0x37, 0x05, 0, 0] 0x12345978 (by decide)).2.1 (by decide)

/-- `addi a0, a0, 0`, relative to zero: the value is odd, and `rs1` is another register. -/
theorem x0RelI_changes_rs1 :
    Field.x0RelI.apply (leBytes 4 0x00050513) 1 = (.ok (), leBytes 4 0x00100513) ∧
      bits 0x00050513 15 5 = 10 ∧ bits 0x00100513 15 5 = 0 := by decide

end Qld.Arch.RiscV
