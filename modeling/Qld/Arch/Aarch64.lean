import Qld.Lib.A64

/-!
# AArch64 instruction encoding

Instruction words are natural numbers below `2 ^ 32`, values to encode are `i64`s: integers.

* `readInsn`, `writeInsn` — a word of a section's contents;
* `Field`, `Field.encode` — a relocatable field, and a value packed into it;
* `movz`, `movk`, `adrp`, `addImm`, `ldrOffset` — the instructions relaxations emit;
* `insert_eq` — what packing a value leaves and replaces;
* `readInsn_overwrite`, `readInsn_overwrite_of_apart` — what a store changes.
-/

namespace Qld.Arch.Aarch64

open Qld.Lib

/-! ### Integers -/

def U32_MAX : ℕ := 2 ^ 32 - 1

/-- How far an `adr` reaches. -/
def ADR_REACH : ℤ := 2 ^ 20

/-- `value as u32`. -/
def asU32 (value : ℤ) : ℕ := (value % 2 ^ 32).toNat

/-- `value as u64`. -/
def asU64 (value : ℤ) : ℕ := (value % 2 ^ 64).toNat

/-- `value as i64`. -/
def asI64 (value : ℤ) : ℤ := (value + 2 ^ 63) % 2 ^ 64 - 2 ^ 63

/-- `u32::checked_shl`, or zero. -/
def shl32 (value bits : ℕ) : ℕ := if bits < 32 then value <<< bits % 2 ^ 32 else 0

/-- `Page(address)`: the address with its low 12 bits cleared. -/
def page (address : ℕ) : ℕ := address / 4096 * 4096

/-- Whether `value` fits `bits` bits as a signed number. -/
def fitsSigned (value : ℤ) (bits : ℕ) : Bool :=
  -- For no bits the shift by `bits - 1` overflows.
  if 64 ≤ bits ∨ bits = 0 then true
  else -2 ^ (bits - 1) ≤ value ∧ value < 2 ^ (bits - 1)

/-- Whether `value` fits `bits` bits as an unsigned number. -/
def fitsUnsigned (value : ℤ) (bits : ℕ) : Bool :=
  if 64 ≤ bits then true else 0 ≤ value ∧ value < asI64 (2 ^ bits)

/-- Whether `value` fits `bits` bits either way. -/
def fitsEither (value : ℤ) (bits : ℕ) : Bool := fitsSigned value bits || fitsUnsigned value bits

/-! ### Words -/

/-- `nop`. -/
def NOP : ℕ := 0xd503201f

/-- `mrs x0, tpidr_el0`: reads the thread pointer. -/
def MRS_TPIDR_X0 : ℕ := 0xd53bd040

/-- Reads the instruction word at `at_`. -/
def readInsn (data : List UInt8) (at_ : ℕ) : Option ℕ := readLe 4 data at_

/-- Writes instruction word `insn` at `at_`. -/
def writeInsn (data : List UInt8) (at_ insn : ℕ) : Option (List UInt8) :=
  if at_ + 4 ≤ data.length then some (overwrite data at_ (leBytes 4 insn)) else none

def insert (insn value lsb bits : ℕ) : ℕ :=
  let mask := if bits < 32 then 2 ^ bits - 1 else U32_MAX
  (insn &&& (U32_MAX - shl32 mask lsb)) ||| shl32 (value &&& mask) lsb

/-- The register number an instruction's `Rd`/`Rt` field holds. -/
def destinationRegister (insn : ℕ) : ℕ := insn &&& 0x1f

/-! ### Fields -/

/-- How the half-word of a `MOVW` group is checked. -/
inductive MovwCheck where
  | none
  | unsigned
  | signed
  deriving DecidableEq, Repr

/-- A relocatable field of one instruction. -/
inductive Field where
  | branch26
  | branch19
  | branch14
  | adr21
  | adrp21
  | adrp21Nc
  | add12
  | add12Checked
  | addHi12
  | ldSt (scale : ℕ) (checked : Bool)
  | ldSt15
  | movw (shift : ℕ) (check : MovwCheck)
  | data32
  | data32Signed
  | data16
  deriving DecidableEq, Repr

structure Overflow where
  deriving DecidableEq, Repr

/-- A signed offset in instruction units, of `bits` bits at `lsb`. -/
def encodeBranch (insn : ℕ) (value : ℤ) (lsb bits : ℕ) : Except Overflow ℕ :=
  if value % 4 ≠ 0 ∨ fitsSigned value (bits + 2) = false then .error {}
  else .ok (insert insn (asU32 (value >>> (2 : ℕ))) lsb bits)

/-- The two parts of the immediate of `adr` and `adrp`. -/
def insertAdr (insn : ℕ) (value : ℤ) : ℕ :=
  insert (insert insn (asU32 (value >>> (2 : ℕ))) 5 19) (asU32 value &&& 3) 29 2

/-- The half-word of a `MOVW` group. -/
def insertMovw (insn : ℕ) (value : ℤ) (shift : ℕ) : ℕ :=
  insert insn (asU64 value >>> shift &&& 0xffff) 5 16

/-- Packs `value` into instruction `insn`.  For an `i64` the bits `value & (2 ^ k - 1)` are
`value % 2 ^ k`. -/
def Field.encode (field : Field) (insn : ℕ) (value : ℤ) : Except Overflow ℕ :=
  match field with
  | .branch26 => encodeBranch insn value 0 26
  | .branch19 => encodeBranch insn value 5 19
  | .branch14 => encodeBranch insn value 5 14
  | .adr21 => if fitsSigned value 21 = false then .error {} else .ok (insertAdr insn value)
  | .adrp21 =>
    if value % 4096 ≠ 0 then .error {}
    else if fitsSigned value 33 = false then .error {}
    else .ok (insertAdr insn (value >>> (12 : ℕ)))
  | .adrp21Nc =>
    if value % 4096 ≠ 0 then .error {} else .ok (insertAdr insn (value >>> (12 : ℕ)))
  | .add12 => .ok (insert insn (asU32 value &&& 0xfff) 10 12)
  | .add12Checked =>
    if fitsUnsigned value 12 = false then .error {} else .ok (insert insn (asU32 value) 10 12)
  | .addHi12 =>
    if fitsUnsigned value 24 = false then .error {}
    else .ok (insert insn (asU32 (value >>> (12 : ℕ))) 10 12)
  | .ldSt scale checked =>
    let scale := min scale 4
    if value % 2 ^ scale ≠ 0 then .error {}
    else if checked ∧ fitsUnsigned value (scale + 12) = false then .error {}
    else .ok (insert insn ((asU64 value &&& 0xfff) >>> scale) 10 12)
  | .ldSt15 =>
    if value % 8 ≠ 0 ∨ fitsUnsigned value 15 = false then .error {}
    else .ok (insert insn (asU32 (value >>> (3 : ℕ))) 10 12)
  | .movw shift check =>
    let shift := min shift 48
    match check with
    | .none => .ok (insertMovw insn value shift)
    | .unsigned =>
      if fitsUnsigned value (shift + 16) = false then .error {}
      else .ok (insertMovw insn value shift)
    | .signed =>
      if fitsSigned value (shift + 16) = false then .error {}
      -- A negative value turns `movz` into `movn`, which loads the inverted value.
      else if value < 0 then .ok (insertMovw (insn &&& (U32_MAX - 1 <<< 30)) (-value - 1) shift)
      else .ok (insertMovw insn value shift)
  | .data32 => if fitsEither value 32 = false then .error {} else .ok (asU32 value)
  | .data32Signed => if fitsSigned value 32 = false then .error {} else .ok (asU32 value)
  | .data16 => if fitsEither value 16 = false then .error {} else .ok (asU32 value &&& 0xffff)

/-! ### Instructions -/

/-- `movz <Xd>, #imm16, lsl #shift`. -/
def movz (rd imm16 shift : ℕ) : ℕ :=
  0xd2800000 ||| (rd &&& 0x1f) ||| (imm16 &&& 0xffff) <<< 5 ||| (shift / 16 &&& 3) <<< 21

/-- `movk <Xd>, #imm16, lsl #shift`. -/
def movk (rd imm16 shift : ℕ) : ℕ :=
  0xf2800000 ||| (rd &&& 0x1f) ||| (imm16 &&& 0xffff) <<< 5 ||| (shift / 16 &&& 3) <<< 21

/-- `adrp <Xd>, #0`, before the page offset is packed in. -/
def adrp (rd : ℕ) : ℕ := 0x90000000 ||| (rd &&& 0x1f)

/-- `add <Xd>, <Xn>, #0`, before the immediate is packed in. -/
def addImm (rd rn : ℕ) : ℕ := 0x91000000 ||| (rd &&& 0x1f) ||| (rn &&& 0x1f) <<< 5

/-- `ldr <Xt>, [<Xn>, #0]`, before the offset is packed in. -/
def ldrOffset (rt rn : ℕ) : ℕ := 0xf9400000 ||| (rt &&& 0x1f) ||| (rn &&& 0x1f) <<< 5

/-- `adr <Xd>, #0`, before the offset is packed in. -/
def adr (rd : ℕ) : ℕ := 0x10000000 ||| (rd &&& 0x1f)

/-- Whether `insn` is `adrp`. -/
def isAdrp (insn : ℕ) : Bool := insn &&& 0x9f000000 == 0x90000000

/-- Whether `insn` is a 64-bit `add <Xd>, <Xn>, #imm` without a shift. -/
def isAddImm64 (insn : ℕ) : Bool := insn &&& 0xffc00000 == 0x91000000

/-- Whether `insn` is a load or store with a scaled 12-bit unsigned offset. -/
def isLoadStoreUnsigned (insn : ℕ) : Bool := insn &&& 0x3b000000 == 0x39000000

/-- The register number an instruction's `Rn` (base) field holds. -/
def baseRegister (insn : ℕ) : ℕ := insn >>> 5 &&& 0x1f

/-- The byte offset an `adrp` adds to the page of its own address. -/
def adrpOffset (insn : ℕ) : ℤ :=
  let low := insn >>> 29 &&& 3
  let high := insn >>> 5 &&& 0x7ffff
  -- Shifted left and right by 43 bits as an `i64`, which extends the sign of the page count.
  let pages := asI64 ((high <<< 2 ||| low : ℕ) * 2 ^ 43) / 2 ^ 43
  pages * 2 ^ 12

/-- The unshifted 12-bit immediate of an `add`. -/
def addImmediate (insn : ℕ) : ℕ := insn >>> 10 &&& 0xfff

/-! ### Packing -/

theorem fitsSigned_iff {value : ℤ} {n : ℕ} (hpos : 0 < n) (hn : n < 64) :
    fitsSigned value n = true ↔ -2 ^ (n - 1) ≤ value ∧ value < 2 ^ (n - 1) := by
  rw [fitsSigned, if_neg (by omega), decide_eq_true_iff]

theorem testBit_mask {lsb bits : ℕ} (hfit : lsb + bits ≤ 32) (hlsb : lsb < 32)
    (i : ℕ) : (U32_MAX - shl32 (2 ^ bits - 1) lsb).testBit i =
      (decide (i < 32) && !(decide (lsb ≤ i) && decide (i < lsb + bits))) := by
  have hlt : (2 ^ bits - 1) <<< lsb < 2 ^ 32 := by
    rw [Nat.shiftLeft_eq]
    calc (2 ^ bits - 1) * 2 ^ lsb < 2 ^ bits * 2 ^ lsb :=
          Nat.mul_lt_mul_of_pos_right (Nat.sub_lt (Nat.two_pow_pos _) Nat.one_pos)
            (Nat.two_pow_pos _)
      _ = 2 ^ (lsb + bits) := by rw [← Nat.pow_add, Nat.add_comm]
      _ ≤ 2 ^ 32 := Nat.pow_le_pow_right (by decide) hfit
  rw [shl32, if_pos hlsb, Nat.mod_eq_of_lt hlt, U32_MAX, Nat.sub_sub, Nat.add_comm 1,
    Nat.testBit_two_pow_sub_succ hlt, Nat.testBit_shiftLeft, Nat.testBit_two_pow_sub_one]
  congr 2
  by_cases h : lsb ≤ i
  · rw [decide_eq_true h, Bool.true_and, Bool.true_and]
    exact decide_eq_decide.mpr (by omega)
  · rw [decide_eq_false h, Bool.false_and, Bool.false_and]

/-- **What packing a value leaves and replaces.** -/
theorem insert_eq (low old high lsb bits value : ℕ) (hlow : low < 2 ^ lsb)
    (hold : old < 2 ^ bits) (hhigh : high * 2 ^ (lsb + bits) < 2 ^ 32) (hbits : bits < 32)
    (hfit : lsb + bits ≤ 32) (hlsb : lsb < 32) :
    insert (low + old * 2 ^ lsb + high * 2 ^ (lsb + bits)) value lsb bits =
      low + value % 2 ^ bits * 2 ^ lsb + high * 2 ^ (lsb + bits) := by
  have hpack : ∀ v < 2 ^ bits, low + v * 2 ^ lsb < 2 ^ (lsb + bits) := by
    intro v hv
    rw [Nat.pow_add]
    calc low + v * 2 ^ lsb < 2 ^ lsb + v * 2 ^ lsb := Nat.add_lt_add_right hlow _
      _ = 2 ^ lsb * (v + 1) := by rw [Nat.mul_add, Nat.mul_one, Nat.mul_comm v, Nat.add_comm]
      _ ≤ 2 ^ lsb * 2 ^ bits := Nat.mul_le_mul_left _ hv
  have hmod : value % 2 ^ bits < 2 ^ bits := Nat.mod_lt _ (Nat.two_pow_pos _)
  have hshift : (value % 2 ^ bits) <<< lsb < 2 ^ 32 := by
    rw [Nat.shiftLeft_eq]
    exact ((Nat.le_add_left _ _).trans_lt (hpack _ hmod)).trans_le
      (Nat.pow_le_pow_right (by decide) hfit)
  rw [← or_shiftLeft _ (hpack _ hold), ← or_shiftLeft _ (hpack _ hmod), ← or_shiftLeft _ hlow,
    ← or_shiftLeft _ hlow, insert, if_pos hbits, Nat.and_two_pow_sub_one_eq_mod]
  refine Nat.eq_of_testBit_eq fun i => ?_
  rw [Nat.testBit_or, Nat.testBit_and, testBit_mask hfit hlsb, shl32, if_pos hlsb,
    Nat.mod_eq_of_lt hshift]
  simp only [Nat.testBit_or, Nat.testBit_shiftLeft]
  have hlowbit : lsb ≤ i → low.testBit i = false := fun h =>
    Nat.testBit_lt_two_pow (hlow.trans_le (Nat.pow_le_pow_right (by decide) h))
  have holdbit : lsb + bits ≤ i → old.testBit (i - lsb) = false := fun h =>
    Nat.testBit_lt_two_pow (hold.trans_le (Nat.pow_le_pow_right (by decide) (by omega)))
  have hnewbit : lsb + bits ≤ i → (value % 2 ^ bits).testBit (i - lsb) = false := fun h =>
    Nat.testBit_lt_two_pow (hmod.trans_le (Nat.pow_le_pow_right (by decide) (by omega)))
  have hhighbit : 32 ≤ i → high.testBit (i - (lsb + bits)) = false := fun h => by
    refine Nat.testBit_lt_two_pow ?_
    rw [← Nat.mul_lt_mul_right (Nat.two_pow_pos (lsb + bits)), ← Nat.pow_add]
    exact hhigh.trans_le (Nat.pow_le_pow_right (by decide) (by omega))
  by_cases h1 : lsb ≤ i
  · by_cases h2 : lsb + bits ≤ i
    · by_cases h3 : 32 ≤ i
      · simp [h1, h2, hlowbit h1, holdbit h2, hnewbit h2, hhighbit h3]
      · simp [h1, h2, hlowbit h1, holdbit h2, hnewbit h2, Nat.lt_of_not_le h3]
    · simp [h1, h2, hlowbit h1, Nat.lt_of_not_le h2]
  · have h2 : ¬lsb + bits ≤ i := by omega
    have h3 : i < 32 := by omega
    simp [h1, h2, h3]

/-! ### What a store changes -/

theorem readInsn_overwrite {data : List UInt8} {at_ insn : ℕ} (hfits : at_ + 4 ≤ data.length)
    (hinsn : insn < 2 ^ 32) : readInsn (overwrite data at_ (leBytes 4 insn)) at_ = some insn := by
  refine readLe_of_standsAt (standsAt_overwrite ?_) (by decide) hinsn
  rw [length_leBytes]
  exact hfits

variable (insn : ℕ)

theorem readInsn_overwrite_of_apart {data : List UInt8} {at_ other : ℕ}
    (hfits : at_ + 4 ≤ data.length) (hapart : at_ + 4 ≤ other ∨ other + 4 ≤ at_) :
    readInsn (overwrite data at_ (leBytes 4 insn)) other = readInsn data other := by
  have hlen : at_ + (leBytes 4 insn).length ≤ data.length := by rwa [length_leBytes]
  rw [readInsn, readLe, length_overwrite hlen, readInsn, readLe]
  congr 3
  apply List.ext_getElem?
  intro k
  rw [List.getElem?_take, List.getElem?_take]
  split
  · next hk =>
    rw [List.getElem?_drop, List.getElem?_drop, getElem?_overwrite hlen, length_leBytes,
      if_neg (by omega)]
  · rfl

/-! ### Encodings -/

theorem or_fields {top rd imm hw : ℕ} (hrd : rd < 2 ^ 5) (himm : imm < 2 ^ 16) (hhw : hw < 2 ^ 2) :
    top * 2 ^ 23 ||| rd ||| imm <<< 5 ||| hw <<< 21 =
      top * 2 ^ 23 + rd + imm * 2 ^ 5 + hw * 2 ^ 21 := by
  rw [← Nat.shiftLeft_eq, Nat.or_assoc, Nat.or_assoc, ← Nat.or_assoc rd, or_shiftLeft imm hrd,
    or_shiftLeft hw (by omega), Nat.or_comm, or_shiftLeft top (by omega)]
  omega

theorem movz_eq (rd imm shift : ℕ) :
    movz rd imm shift = 0xd2800000 + rd % 2 ^ 5 + imm % 2 ^ 16 * 2 ^ 5 + shift / 16 % 4 * 2 ^ 21 := by
  have h : movz rd imm shift =
      0x1a5 * 2 ^ 23 ||| rd % 2 ^ 5 ||| (imm % 2 ^ 16) <<< 5 ||| (shift / 16 % 2 ^ 2) <<< 21 := by
    rw [← Nat.and_two_pow_sub_one_eq_mod, ← Nat.and_two_pow_sub_one_eq_mod,
      ← Nat.and_two_pow_sub_one_eq_mod]
    rfl
  rw [h, or_fields (Nat.mod_lt _ (by decide)) (Nat.mod_lt _ (by decide)) (Nat.mod_lt _ (by decide))]
  rfl

theorem movk_eq (rd imm shift : ℕ) :
    movk rd imm shift = 0xf2800000 + rd % 2 ^ 5 + imm % 2 ^ 16 * 2 ^ 5 + shift / 16 % 4 * 2 ^ 21 := by
  have h : movk rd imm shift =
      0x1e5 * 2 ^ 23 ||| rd % 2 ^ 5 ||| (imm % 2 ^ 16) <<< 5 ||| (shift / 16 % 2 ^ 2) <<< 21 := by
    rw [← Nat.and_two_pow_sub_one_eq_mod, ← Nat.and_two_pow_sub_one_eq_mod,
      ← Nat.and_two_pow_sub_one_eq_mod]
    rfl
  rw [h, or_fields (Nat.mod_lt _ (by decide)) (Nat.mod_lt _ (by decide)) (Nat.mod_lt _ (by decide))]
  rfl

/-- The twelve bits of an `add` or a scaled load without an immediate. -/
theorem insert_imm12 (top value : ℕ) (htop : top < 2 ^ 10) :
    insert (top * 2 ^ 22) value 10 12 = top * 2 ^ 22 + value % 2 ^ 12 * 2 ^ 10 := by
  have h := insert_eq 0 0 top 10 12 value (by decide) (by decide) (by omega) (by decide)
    (by decide) (by decide)
  rw [Nat.zero_mul, Nat.add_zero, Nat.zero_add, Nat.zero_add] at h
  rw [h, Nat.add_comm]

theorem asU32_mod {value : ℤ} {bits : ℕ} (hbits : bits ≤ 32) :
    asU32 value % 2 ^ bits = (value % 2 ^ bits).toNat := by
  have hdvd : (2 ^ bits : ℤ) ∣ 2 ^ 32 := pow_dvd_pow 2 hbits
  rw [asU32, ← Int.toNat_natCast (_ % _), Int.natCast_mod, Int.toNat_of_nonneg (by omega),
    Int.natCast_pow]
  exact congrArg Int.toNat (Int.emod_emod_of_dvd value hdvd)

/-- The immediate of an `adr` (`p = 0`) or an `adrp` (`p = 1`) without one. -/
theorem insertAdr_eq (p rd : ℕ) (value : ℤ) (hp : p < 2) (hrd : rd < 2 ^ 5) :
    insertAdr (rd + (0x10 + p * 2 ^ 7) * 2 ^ 24) value =
      0x10000000 + p * 2 ^ 31 + rd + (value / 4 % 2 ^ 19).toNat * 2 ^ 5 +
        (value % 4).toNat * 2 ^ 29 := by
  have hhigh : asU32 (value >>> (2 : ℕ)) % 2 ^ 19 = (value / 4 % 2 ^ 19).toNat := by
    rw [asU32_mod (by decide), Int.shiftRight_eq_div_pow]
    rfl
  have hlow : (asU32 value &&& 3) % 2 ^ 2 = (value % 4).toNat := by
    rw [show 3 = 2 ^ 2 - 1 from rfl, Nat.and_two_pow_sub_one_eq_mod, Nat.mod_mod,
      asU32_mod (by decide)]
    rfl
  have hfirst :=
    insert_eq rd 0 (0x10 + p * 2 ^ 7) 5 19 (asU32 (value >>> (2 : ℕ))) hrd (by decide)
    (by omega) (by decide) (by decide) (by decide)
  rw [hhigh, Nat.zero_mul, Nat.add_zero] at hfirst
  have hlt : (value / 4 % 2 ^ 19).toNat < 2 ^ 19 := by omega
  generalize (value / 4 % 2 ^ 19).toNat = hi at hfirst hlt ⊢
  have hsecond := insert_eq (rd + hi * 2 ^ 5 + 0x10000000) 0 p 29 2 (asU32 value &&& 3) (by omega)
    (by decide) (by omega) (by decide) (by decide) (by decide)
  rw [hlow] at hsecond
  have hword : insert (rd + (0x10 + p * 2 ^ 7) * 2 ^ 24) (asU32 (value >>> (2 : ℕ))) 5 19 =
      rd + hi * 2 ^ 5 + 0x10000000 + 0 * 2 ^ 29 + p * 2 ^ (29 + 2) :=
    hfirst.trans (by omega)
  rw [insertAdr, hword, hsecond]
  omega

theorem adrp_eq (rd : ℕ) : adrp rd = rd % 2 ^ 5 + (0x10 + 1 * 2 ^ 7) * 2 ^ 24 := by
  rw [adrp, show 0x1f = 2 ^ 5 - 1 from rfl, Nat.and_two_pow_sub_one_eq_mod,
    show 0x90000000 = (0x10 + 1 * 2 ^ 7) <<< 24 from rfl, Nat.or_comm, or_shiftLeft _ (by omega)]

theorem adr_eq (rd : ℕ) : adr rd = rd % 2 ^ 5 + (0x10 + 0 * 2 ^ 7) * 2 ^ 24 := by
  rw [adr, show 0x1f = 2 ^ 5 - 1 from rfl, Nat.and_two_pow_sub_one_eq_mod,
    show 0x10000000 = (0x10 + 0 * 2 ^ 7) <<< 24 from rfl, Nat.or_comm, or_shiftLeft _ (by omega)]

theorem addImm_eq (rd rn : ℕ) :
    addImm rd rn = rd % 2 ^ 5 + rn % 2 ^ 5 * 2 ^ 5 + 0 * 2 ^ 10 + 0x244 * 2 ^ (10 + 12) := by
  rw [addImm, show 0x1f = 2 ^ 5 - 1 from rfl, Nat.and_two_pow_sub_one_eq_mod,
    Nat.and_two_pow_sub_one_eq_mod, Nat.or_assoc, or_shiftLeft _ (by omega), Nat.or_comm,
    show 0x91000000 = 0x244 <<< 22 from rfl, or_shiftLeft _ (by omega)]
  omega

/-! ### What an instruction is -/

theorem isAdrp_iff :
    isAdrp insn = true ↔ bits insn 31 1 = 1 ∧ bits insn 24 5 = 0x10 := by
  have h := land_two_masks insn 0x80000000 0x1f000000 (m := 1) (n := 5) (k := 31) (l := 24)
    (by decide) rfl rfl
  rw [isAdrp, beq_iff_eq, show 0x9f000000 = 0x80000000 ||| 0x1f000000 from rfl, h, bits, bits]
  omega

theorem isAddImm64_iff : isAddImm64 insn = true ↔ bits insn 22 10 = 0x244 := by
  rw [isAddImm64, beq_iff_eq, show 0xffc00000 = (2 ^ 10 - 1) <<< 22 from rfl, land_mask, bits]
  omega

theorem isLoadStoreUnsigned_iff :
    isLoadStoreUnsigned insn = true ↔ bits insn 27 3 = 7 ∧ bits insn 24 2 = 1 := by
  have h := land_two_masks insn 0x38000000 0x03000000 (m := 3) (n := 2) (k := 27) (l := 24)
    (by decide) rfl rfl
  rw [isLoadStoreUnsigned, beq_iff_eq, show 0x3b000000 = 0x38000000 ||| 0x03000000 from rfl, h,
    bits, bits]
  omega

theorem destinationRegister_eq : destinationRegister insn = bits insn 0 5 := by
  rw [destinationRegister, show 0x1f = 2 ^ 5 - 1 from rfl, Nat.and_two_pow_sub_one_eq_mod, bits,
    Nat.pow_zero, Nat.div_one]

theorem baseRegister_eq : baseRegister insn = bits insn 5 5 := by
  rw [baseRegister, show 0x1f = 2 ^ 5 - 1 from rfl, Nat.and_two_pow_sub_one_eq_mod, bits,
    Nat.shiftRight_eq_div_pow]

theorem addImmediate_eq : addImmediate insn = bits insn 10 12 := by
  rw [addImmediate, show 0xfff = 2 ^ 12 - 1 from rfl, Nat.and_two_pow_sub_one_eq_mod, bits,
    Nat.shiftRight_eq_div_pow]

theorem adrpOffset_eq :
    adrpOffset insn = A64.signExtend 21 (bits insn 29 2 + 4 * bits insn 5 19) * 4096 := by
  have hlow : insn >>> 29 &&& 3 = bits insn 29 2 := by
    rw [show 3 = 2 ^ 2 - 1 from rfl, Nat.and_two_pow_sub_one_eq_mod, bits, Nat.shiftRight_eq_div_pow]
  have hhigh : insn >>> 5 &&& 0x7ffff = bits insn 5 19 := by
    rw [show 0x7ffff = 2 ^ 19 - 1 from rfl, Nat.and_two_pow_sub_one_eq_mod, bits,
      Nat.shiftRight_eq_div_pow]
  have hlt : bits insn 29 2 < 2 ^ 2 := Nat.mod_lt _ (by decide)
  have hlt' : bits insn 5 19 < 2 ^ 19 := Nat.mod_lt _ (by decide)
  rw [adrpOffset]
  simp only [hlow, hhigh]
  rw [Nat.or_comm, or_shiftLeft _ hlt, asI64, A64.signExtend]
  split <;> omega

end Qld.Arch.Aarch64
