import Qld.Arch.Aarch64
import Qld.Lib.Word64

/-!
# PowerPC64 instruction encoding

Instruction words are natural numbers; a prefixed instruction is one of 64 bits, the prefix in its
upper half.  Values to encode are `i64`s: integers.

* `lo`, `hi`, `ha`, `haIsZero` — the parts of a value;
* `Field`, `Field.encode16`, `Field.encode32`, `Field.encode64` — a value packed into a field;
* `thunk` — the instructions of a range-extension thunk.
-/

namespace Qld.Arch.Ppc64

open Qld.Lib
open Qld.Arch.Aarch64 (asU32 asU64 asI64)

/-! ### Words -/

/-- `nop`. -/
def NOP : ℕ := 0x60000000

/-- `std r2, 24(r1)`. -/
def STD_R2_24_R1 : ℕ := 0xf8410018

/-- `mtctr r12`. -/
def MTCTR_R12 : ℕ := 0x7d8903a6

/-- `bctr`. -/
def BCTR : ℕ := 0x4e800420

/-- `pld r3, 0(0), 1`. -/
def PLD_R3 : ℕ := 0x04100000e4600000

/-- `trap`, which pads a thunk. -/
def TRAP : ℕ := 0x7fe00008

/-- Why a value could not be packed into a field. -/
inductive EncodeError where
  | overflow
  | badInstruction
  deriving DecidableEq, Repr

/-! ### Parts of a value -/

/-- `value.wrapping_add(n)` of an `i64`. -/
def wrappingAddI64 (value n : ℤ) : ℤ := asI64 (value + n)

def lo (value : ℕ) : ℕ := value &&& 0xffff

def hi (value : ℕ) : ℕ := value >>> 16 &&& 0xffff

/-- `hi`, adjusted for the sign of `lo`. -/
def ha (value : ℕ) : ℕ := wrappingAdd value 0x8000 >>> 16 &&& 0xffff

/-- Whether the `addis` of a pair adds nothing. -/
def haIsZero (value : ℕ) : Bool := wrappingAdd value 0x8000 >>> 16 == 0

/-- Whether `value` fits `bits` bits as a signed number. -/
def fitsSigned (value : ℤ) (bits : ℕ) : Bool := Aarch64.fitsSigned value bits

/-- Whether `value` fits `bits` bits, signed or unsigned. -/
def fitsEither (value : ℤ) (bits : ℕ) : Bool := Aarch64.fitsEither value bits

/-- The primary opcode of an instruction. -/
def primaryOpcode (insn : ℕ) : ℕ := insn >>> 26

/-- Whether the DS-form field of `insn` is really a DQ form, which keeps four low bits. -/
def isDqForm (insn : ℕ) : Bool :=
  if primaryOpcode insn = 6 ∨ primaryOpcode insn = 56 then true
  else if primaryOpcode insn = 61 then insn &&& 3 == 1
  else false

/-- Whether `insn` is an update-form load or store. -/
def isUpdateForm (insn : ℕ) : Bool :=
  if [33, 35, 41, 43, 49, 51, 37, 39, 45, 53, 55].contains (primaryOpcode insn) then true
  else if primaryOpcode insn = 58 ∨ primaryOpcode insn = 62 then insn &&& 3 == 1
  else false

/-! ### Fields -/

/-- A relocatable field of one instruction (or data word). -/
inductive Field where
  | half16
  | half16Signed
  | lo
  | hi
  | ha
  | high
  | higha
  | higher
  | highera
  | highest
  | highesta
  | ds
  | loDs
  | haToc
  | loToc
  | loDsToc
  | loDsToAddi
  | relDxHa
  | rel24
  | rel14
  | addr24
  | addr14
  | prefixed34
  | ldR3LoDs
  | pldR3
  | pldToPaddi
  | pcrelOpt
  deriving DecidableEq, Repr

/-- The number of bytes the field occupies. -/
def Field.bytes : Field → ℕ
  | .half16 | .half16Signed | .lo | .hi | .ha | .high | .higha | .higher | .highera | .highest
  | .highesta => 2
  | .prefixed34 | .pldR3 | .pldToPaddi | .pcrelOpt => 8
  | _ => 4

/-- Packs `value` into a 16-bit field. -/
def Field.encode16 (field : Field) (value : ℤ) : Except EncodeError ℕ :=
  let v := asU64 value
  match field with
  | .half16 => if fitsEither value 16 = false then .error .overflow else .ok (Ppc64.lo v)
  | .half16Signed => if fitsSigned value 16 = false then .error .overflow else .ok (Ppc64.lo v)
  | .lo => .ok (Ppc64.lo v)
  | .hi => if fitsSigned value 32 = false then .error .overflow else .ok (Ppc64.hi v)
  | .ha =>
    if fitsSigned (wrappingAddI64 value 0x8000) 32 = false then .error .overflow
    else .ok (Ppc64.ha v)
  | .high => .ok (Ppc64.hi v)
  | .higha => .ok (Ppc64.ha v)
  | .higher => .ok (v >>> 32 &&& 0xffff)
  | .highera => .ok (wrappingAdd v 0x8000 >>> 32 &&& 0xffff)
  | .highest => .ok (v >>> 48)
  | .highesta => .ok (wrappingAdd v 0x8000 >>> 48)
  | _ => .error .badInstruction

/-- The lower half of an instruction is replaced. -/
def low (insn half : ℕ) : ℕ := (insn &&& 0xffff0000) ||| (half &&& 0xffff)

/-- The low bits of a displacement that belong to the opcode. -/
def dsMask (insn : ℕ) : ℕ := if isDqForm insn then 0xf else 0x3

def encodeLoDs (insn : ℕ) (v : ℕ) : Except EncodeError ℕ :=
  if lo v &&& dsMask insn ≠ 0 then .error .overflow
  else .ok (low insn ((insn &&& dsMask insn) ||| lo v))

def encodeLoToc (insn : ℕ) (v : ℕ) : Except EncodeError ℕ :=
  if haIsZero v then
    if isUpdateForm insn then .error .badInstruction
    else .ok ((insn &&& 0xffe00000) ||| 0x00020000 ||| lo v)
  else .ok (low insn (lo v))

/-- Packs `value` into instruction `insn`. -/
def Field.encode32 (field : Field) (insn : ℕ) (value : ℤ) : Except EncodeError ℕ :=
  let v := asU64 value
  match field with
  | .ds =>
    if fitsSigned value 16 = false ∨ Ppc64.lo v &&& dsMask insn ≠ 0 then .error .overflow
    else .ok (low insn ((insn &&& dsMask insn) ||| Ppc64.lo v))
  | .loDs => encodeLoDs insn v
  -- The immediate is split: bits 15-6 and bit 0 stay, and bits 5-1 move up to 20-16.
  | .relDxHa =>
    if fitsSigned (wrappingAddI64 value 0x8000) 32 = false then .error .overflow
    else
      let half := Ppc64.ha v
      .ok ((insn &&& 0xffe0003e) ||| (half &&& 0xffc1) ||| (half &&& 0x3e) <<< 15)
  | .haToc =>
    if haIsZero v then .ok NOP
    else if fitsSigned (wrappingAddI64 value 0x8000) 32 = false then .error .overflow
    else .ok (low insn (Ppc64.ha v))
  | .loToc => encodeLoToc insn v
  | .loDsToc =>
    if Ppc64.lo v &&& dsMask insn ≠ 0 then .error .overflow
    else if haIsZero v then
      if isUpdateForm insn then .error .badInstruction
      else .ok ((insn &&& (0xffe00000 ||| dsMask insn)) ||| 0x00020000 ||| Ppc64.lo v)
    else .ok (low insn ((insn &&& dsMask insn) ||| Ppc64.lo v))
  -- `ld rT, x(rA)` becomes `addi rT, rA, x`.
  | .loDsToAddi =>
    if primaryOpcode insn ≠ 58 then .error .badInstruction
    else encodeLoToc ((insn &&& 0x03ffffff) ||| 0x38000000) v
  | .rel24 =>
    if value % 4 ≠ 0 ∨ fitsSigned value 26 = false then .error .overflow
    else .ok ((insn &&& 0xfc000003) ||| (asU32 value &&& 0x03fffffc))
  | .addr24 =>
    if value % 4 ≠ 0 ∨ ¬(fitsSigned value 26 = true ∨ 0 ≤ value ∧ value < 2 ^ 26) then
      .error .overflow
    else .ok ((insn &&& 0xfc000003) ||| (asU32 value &&& 0x03fffffc))
  | .rel14 =>
    if value % 4 ≠ 0 ∨ fitsSigned value 16 = false then .error .overflow
    else .ok ((insn &&& 0xffff0003) ||| (asU32 value &&& 0xfffc))
  | .addr14 =>
    if value % 4 ≠ 0 then .error .overflow
    else .ok ((insn &&& 0xffff0003) ||| (asU32 value &&& 0xfffc))
  -- `addi r3, rA, …` becomes `ld r3, …(rA)`.
  | .ldR3LoDs => encodeLoDs (0xe8600000 ||| (insn &&& 0x001f0000)) v
  | _ => .error .badInstruction

/-- Packs a 34-bit signed displacement into a prefixed instruction. -/
def prefixed34 (insn : ℕ) (value : ℤ) : Except EncodeError ℕ :=
  if fitsSigned value 34 = false then .error .overflow
  else
    let v := asU64 value
    .ok ((insn &&& 0xfffc0000ffff0000) ||| (v &&& 0x3ffff0000) <<< 16 ||| (v &&& 0xffff))

/-- Packs `value` into prefixed instruction `insn`. -/
def Field.encode64 (field : Field) (insn : ℕ) (value : ℤ) : Except EncodeError ℕ :=
  match field with
  | .prefixed34 => Ppc64.prefixed34 insn value
  | .pldR3 => Ppc64.prefixed34 PLD_R3 value
  | .pldToPaddi =>
    if insn &&& 0xfc000000 ≠ 0xe4000000 then .error .badInstruction
    else Ppc64.prefixed34 ((insn &&& 0x00ffffff03ffffff) ||| 0x0600000038000000) value
  | _ => .error .badInstruction

/-! ### Thunks -/

/-- A thunk key with this bit set names a word that holds the destination. -/
def THUNK_VIA_SLOT : ℕ := 1

/-- A thunk key with this bit set saves `r2`. -/
def THUNK_SAVE_TOC : ℕ := 2

/-- The instructions of the range-extension thunk at `thunk` for thunk `key`. -/
def thunk (thunk key : ℕ) : Except EncodeError (List ℕ) :=
  let target := key / 4 * 4
  let save := key &&& THUNK_SAVE_TOC != 0
  let start := if save then wrappingAdd thunk 4 else thunk
  let offset := asI64 (asI64 target - asI64 (wrappingAdd start 8))
  if fitsSigned (wrappingAddI64 offset 0x8000) 32 = false then .error .overflow
  else
    let v := asU64 offset
    if key &&& THUNK_VIA_SLOT ≠ 0 ∧ v &&& 3 ≠ 0 then .error .overflow
    else
      let low := if key &&& THUNK_VIA_SLOT ≠ 0 then 0xe98c0000 ||| lo v else 0x398c0000 ||| lo v
      let body := [
        0x7d8802a6, -- `mflr r12`
        0x429f0005, -- `bcl 20, 31, .+4`
        0x7d6802a6, -- `mflr r11`
        0x7d8803a6, -- `mtlr r12`
        0x3d8b0000 ||| ha v, -- `addis r12, r11, #ha`
        low,
        MTCTR_R12,
        BCTR]
      .ok (if save then STD_R2_24_R1 :: body else body ++ [TRAP])

end Qld.Arch.Ppc64
