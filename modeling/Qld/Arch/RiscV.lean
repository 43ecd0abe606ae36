import Qld.Arch.Aarch64
import Qld.Lib.Except
import Qld.Lib.Word64

/-!
# RISC-V instruction encoding

Values are `u64`s and instruction words `u32`s: natural numbers.

* `hi20`, `lo12`, `checkHi`, `wrap32Hi` — an address in an upper part and a signed low part;
* `Field`, `Field.apply` — a relocatable field of some bytes, and a value packed into it;
* `readUleb128`, `overwriteUleb128` — a ULEB128 number, read and written in place.
-/

namespace Qld.Arch.RiscV

open Qld.Lib
open Qld.Arch.Aarch64 (U32_MAX asI64)

/-! ### Parts of a value -/

/-- The zero register. -/
def X0 : ℕ := 0

/-- The global pointer. -/
def GP : ℕ := 3

/-- What `__tls_get_addr` adds to an offset. -/
def DTP_OFFSET : ℕ := 0x800

/-- The 20 bits `lui` and `auipc` load, rounded for the signed low part. -/
def hi20 (value : ℕ) : ℕ := wrappingAdd value 0x800 >>> 12 % 2 ^ 32 &&& 0xfffff

/-- The low 12 bits, which the instruction sign-extends. -/
def lo12 (value : ℕ) : ℕ := value % 2 ^ 32 &&& 0xfff

/-- Whether `value` fits `bits` bits as a signed number. -/
def fitsSigned (value : ℤ) (bits : ℕ) : Bool :=
  if 64 ≤ bits then true else -2 ^ (bits - 1) ≤ value ∧ value < 2 ^ (bits - 1)

theorem fitsSigned_iff {value : ℤ} {n : ℕ} (hn : n < 64) :
    fitsSigned value n = true ↔ -2 ^ (n - 1) ≤ value ∧ value < 2 ^ (n - 1) := by
  rw [fitsSigned, if_neg (by omega), decide_eq_true_iff]

/-- Replaces the `rs1` field of a 32-bit instruction. -/
def withRs1 (insn rs1 : ℕ) : ℕ := (insn &&& (U32_MAX - 31 <<< 15)) ||| (rs1 &&& 31) <<< 15

/-- Sets the 12-bit immediate of an I-type instruction. -/
def setLo12I (insn imm : ℕ) : ℕ := (insn &&& 0xfffff) ||| (imm &&& 0xfff) <<< 20

/-- Sets the 12-bit immediate of an S-type instruction. -/
def setLo12S (insn imm : ℕ) : ℕ :=
  (insn &&& 0x01fff07f) ||| (imm >>> 5 &&& 0x7f) <<< 25 ||| (imm &&& 0x1f) <<< 7

/-- Bits `high..=low` of `value`, shifted down. -/
def bitsOf (value high low : ℕ) : ℕ := value >>> low &&& (1 <<< (high - low + 1) - 1)

/-- Reads the 32-bit word at `at_`. -/
def read32 (data : List UInt8) (at_ : ℕ) : Option ℕ := readLe 4 data at_

/-- Writes the 32-bit word `value` at `at_`. -/
def write32 (data : List UInt8) (at_ value : ℕ) : Option (List UInt8) :=
  if at_ + 4 ≤ data.length then some (overwrite data at_ (leBytes 4 value)) else none

/-- Reads the 16-bit word at `at_`. -/
def read16 (data : List UInt8) (at_ : ℕ) : Option ℕ := readLe 2 data at_

/-- Writes the 16-bit word `value` at `at_`. -/
def write16 (data : List UInt8) (at_ value : ℕ) : Option (List UInt8) :=
  if at_ + 2 ≤ data.length then some (overwrite data at_ (leBytes 2 value)) else none

/-! ### Fields -/

/-- Why a field could not be written. -/
inductive FieldError where
  | overflow
  | outOfBounds
  deriving DecidableEq, Repr

/-- A relocatable field: data, an instruction immediate, or label arithmetic. -/
inductive Field where
  | word32
  | word32Signed
  | word64
  | hi20
  | lo12I
  | lo12S
  | x0RelI
  | x0RelS
  | gpRelI
  | gpRelS
  | branch
  | jal
  | rvcBranch
  | rvcJump
  | call
  | sub6
  | set6
  | set8
  | set16
  | set32
  | setUleb128
  | subUleb128
  | dtprel32
  | dtprel64
  deriving DecidableEq, Repr

/-- Rewrites the ULEB128 number at the start of `data` with `value`, keeping its encoded length.
Returns whether the value fit, and the data after it. -/
def overwriteUleb128 : List UInt8 → ℕ → Except FieldError Bool × List UInt8
  | [], _ => (.error .outOfBounds, [])
  | byte :: data, rest =>
    let low := rest &&& 0x7f
    if byte.toNat &&& 0x80 ≠ 0 then
      let after := overwriteUleb128 data (rest >>> 7)
      (after.1, UInt8.ofNat (low ||| 0x80) :: after.2)
    else (.ok (rest >>> 7 = 0), UInt8.ofNat low :: data)

/-- Reads the ULEB128 number after `shift` bits that make up `value`. -/
def readUlebFrom : List UInt8 → ℕ → ℕ → Except FieldError ℕ
  | [], _, _ => .error .outOfBounds
  | byte :: data, shift, value =>
    let value :=
      if shift < 64 then value ||| (byte.toNat &&& 0x7f) <<< shift % 2 ^ 64 else value
    if byte.toNat &&& 0x80 = 0 then .ok value
    else readUlebFrom data (min (shift + 7) U32_MAX) value

/-- Reads the ULEB128 number at the start of `data` (wrapping past 64 bits). -/
def readUleb128 (data : List UInt8) : Except FieldError ℕ := readUlebFrom data 0 0

/-- The number of bytes the field occupies (the maximum for ULEB128). -/
def Field.bytes : Field → ℕ
  | .sub6 | .set6 | .set8 => 1
  | .rvcBranch | .rvcJump | .set16 => 2
  | .word64 | .dtprel64 | .call | .setUleb128 | .subUleb128 => 8
  | _ => 4

/-- Whether `%hi(value)` fits the 20-bit immediate, as a signed number. -/
def checkHi (value : ℕ) : Except FieldError Unit :=
  if fitsSigned (asI64 (wrappingAdd value 0x800) >>> (12 : ℕ)) 20 then .ok ()
  else .error .overflow

/-- `value` as RV32 sees it in a pair: sign-extended from 32 bits, past the rounding. -/
def wrap32Hi (value : ℕ) : ℕ :=
  let wrapped := (wrappingAdd value 0x800 + 2 ^ 31 : ℤ) % 2 ^ 32 - 2 ^ 31
  wrappingSub (wrapped % 2 ^ 64).toNat 0x800

def get16 (data : List UInt8) : Except FieldError ℕ := okOrElse (read16 data 0) .outOfBounds

def get32 (data : List UInt8) : Except FieldError ℕ := okOrElse (read32 data 0) .outOfBounds

def put8 (data : List UInt8) (v : ℕ) : Except FieldError (List UInt8) :=
  if 1 ≤ data.length then .ok (overwrite data 0 (leBytes 1 v)) else .error .outOfBounds

def put16 (data : List UInt8) (v : ℕ) : Except FieldError (List UInt8) :=
  okOrElse (write16 data 0 v) .outOfBounds

def put32 (data : List UInt8) (v : ℕ) : Except FieldError (List UInt8) :=
  okOrElse (write32 data 0 v) .outOfBounds

def put64 (data : List UInt8) (v : ℕ) : Except FieldError (List UInt8) :=
  if 8 ≤ data.length then .ok (overwrite data 0 (leBytes 8 v)) else .error .outOfBounds

/-- The first byte. -/
def getByte (data : List UInt8) : Except FieldError ℕ :=
  okOrElse (data.head?.map UInt8.toNat) .outOfBounds

/-- The value, as a signed number, must fit `bits` bits. -/
def check (value bits : ℕ) : Except FieldError Unit :=
  if fitsSigned (asI64 value) bits then .ok () else .error .overflow

/-- The target of a branch must be even. -/
def aligned (value : ℕ) : Except FieldError Unit :=
  if value &&& 1 = 0 then .ok () else .error .overflow

/-- A value relative to a register that is known: the whole value, and the register. -/
def applyRel (data : List UInt8) (value base : ℕ) (set : ℕ → ℕ → ℕ) :
    Except FieldError (List UInt8) := do
  check value 12
  let insn ← get32 data
  put32 data (set (withRs1 insn base) (value % 2 ^ 32))

/-- Packs `value` into a field that is written when nothing is wrong. -/
def Field.patch (field : Field) (data : List UInt8) (value : ℕ) : Except FieldError (List UInt8) :=
  match field with
  | .word32 => put32 data value
  | .word32Signed | .set32 => do
    check value 32
    put32 data value
  | .word64 => put64 data value
  | .hi20 => do
    checkHi value
    let insn ← get32 data
    put32 data ((insn &&& 0xfff) ||| RiscV.hi20 value <<< 12)
  | .lo12I => do
    let insn ← get32 data
    put32 data (setLo12I insn (lo12 value))
  | .lo12S => do
    let insn ← get32 data
    put32 data (setLo12S insn (lo12 value))
  | .x0RelI => applyRel data value X0 setLo12I
  | .x0RelS => applyRel data value X0 setLo12S
  | .gpRelI => applyRel data value GP setLo12I
  | .gpRelS => applyRel data value GP setLo12S
  | .branch => do
    check value 13
    aligned value
    let insn := (← get32 data) &&& 0x01fff07f
    put32 data (insn ||| bitsOf value 12 12 <<< 31 ||| bitsOf value 10 5 <<< 25 |||
      bitsOf value 4 1 <<< 8 ||| bitsOf value 11 11 <<< 7)
  | .jal => do
    check value 21
    aligned value
    let insn := (← get32 data) &&& 0xfff
    put32 data (insn ||| bitsOf value 20 20 <<< 31 ||| bitsOf value 10 1 <<< 21 |||
      bitsOf value 11 11 <<< 20 ||| bitsOf value 19 12 <<< 12)
  | .rvcBranch => do
    check value 9
    aligned value
    let insn := (← get16 data) &&& 0xe383
    put16 data (insn ||| bitsOf value 8 8 <<< 12 ||| bitsOf value 4 3 <<< 10 |||
      bitsOf value 7 6 <<< 5 ||| bitsOf value 2 1 <<< 3 ||| bitsOf value 5 5 <<< 2)
  | .rvcJump => do
    check value 12
    aligned value
    let insn := (← get16 data) &&& 0xe003
    put16 data (insn ||| bitsOf value 11 11 <<< 12 ||| bitsOf value 4 4 <<< 11 |||
      bitsOf value 9 8 <<< 9 ||| bitsOf value 10 10 <<< 8 ||| bitsOf value 6 6 <<< 7 |||
      bitsOf value 7 7 <<< 6 ||| bitsOf value 3 1 <<< 3 ||| bitsOf value 5 5 <<< 2)
  | .call => do
    checkHi value
    let auipc ← get32 data
    let jalr ← okOrElse (read32 data 4) .outOfBounds
    let data ← put32 data ((auipc &&& 0xfff) ||| RiscV.hi20 value <<< 12)
    -- The word was read: there is room for it.
    okOrElse (write32 data 4 (setLo12I jalr (lo12 value))) .outOfBounds
  | .sub6 => do
    let old ← getByte data
    put8 data ((old &&& 0xc0) ||| (((old &&& 0x3f) + 2 ^ 8 - value % 2 ^ 8) &&& 0x3f))
  | .set6 => do
    let old ← getByte data
    put8 data ((old &&& 0xc0) ||| (value % 2 ^ 8 &&& 0x3f))
  | .set8 => put8 data value
  | .set16 => put16 data value
  | .dtprel32 => put32 data (wrappingSub value DTP_OFFSET)
  | .dtprel64 => put64 data (wrappingSub value DTP_OFFSET)
  | .setUleb128 | .subUleb128 => .ok data

/-- Overwrites the number at the start of `data`; a part of a value that did not fit stays. -/
def writeUleb128 (data : List UInt8) (value : ℕ) : Except FieldError Unit × List UInt8 :=
  let after := overwriteUleb128 data value
  (after.1.bind fun fits => if fits then .ok () else .error .overflow, after.2)

/-- Packs `value` into the field at the start of `data`; returns the data after it. -/
def Field.apply (field : Field) (data : List UInt8) (value : ℕ) :
    Except FieldError Unit × List UInt8 :=
  match field with
  | .setUleb128 => writeUleb128 data value
  | .subUleb128 =>
    match readUleb128 data with
    | .error e => (.error e, data)
    | .ok old => writeUleb128 data (wrappingSub old value)
  | field =>
    match field.patch data value with
    | .error e => (.error e, data)
    | .ok patched => (.ok (), patched)

end Qld.Arch.RiscV
