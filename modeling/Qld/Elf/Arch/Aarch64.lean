import Qld.Arch.Aarch64
import Qld.Elf.Arch.Reloc
import Qld.Elf.Word
import Qld.Lib.Except

/-!
# AArch64 TLS relaxation

A relaxed TLS sequence is rewritten instruction by instruction, each one identified by its own
relocation, except the `bl __tls_get_addr` of a general-dynamic access (and the `nop` after it),
which the `ADD_LO12_NC` of the sequence rewrites.

* `RelaxValues` — what a relaxation is given;
* `relaxTls` — one instruction of a sequence.
-/

namespace Qld.Elf.Arch

open Qld.Lib Qld.Arch.Aarch64

/-- The values a relaxation may need: an `i64` and two `u64`s. -/
structure RelaxValues where
  tpoff : ℤ
  got : ℕ
  place : ℕ
  tpoff_range : -2 ^ 63 ≤ tpoff ∧ tpoff < 2 ^ 63
  got_lt : got < 2 ^ 64
  place_lt : place < 2 ^ 64

def R_AARCH64_TLSGD_ADR_PAGE21 : ℕ := 0x201
def R_AARCH64_TLSGD_ADD_LO12_NC : ℕ := 0x202
def R_AARCH64_TLSLD_ADR_PAGE21 : ℕ := 0x206
def R_AARCH64_TLSLD_ADD_LO12_NC : ℕ := 0x207
def R_AARCH64_TLSIE_MOVW_GOTTPREL_G1 : ℕ := 0x21b
def R_AARCH64_TLSIE_MOVW_GOTTPREL_G0_NC : ℕ := 0x21c
def R_AARCH64_TLSIE_ADR_GOTTPREL_PAGE21 : ℕ := 0x21d
def R_AARCH64_TLSIE_LD64_GOTTPREL_LO12_NC : ℕ := 0x21e
def R_AARCH64_TLSDESC_ADR_PAGE21 : ℕ := 0x232
def R_AARCH64_TLSDESC_LD64_LO12 : ℕ := 0x233
def R_AARCH64_TLSDESC_ADD_LO12 : ℕ := 0x234
def R_AARCH64_TLSDESC_CALL : ℕ := 0x239

/-! ### Words of the section -/

def put (out : List UInt8) (at_ value : ℕ) : Except ApplyError (List UInt8) :=
  okOrElse (writeInsn out at_ value) .outOfBounds

def get (out : List UInt8) (at_ : ℕ) : Except ApplyError ℕ :=
  okOrElse (readInsn out at_) .outOfBounds

def patch (out : List UInt8) (at_ insn : ℕ) (field : Field) (value : ℤ) :
    Except ApplyError (List UInt8) :=
  match field.encode insn value with
  | .error _ => .error .overflow
  | .ok encoded => put out at_ encoded

/-- `add x0, x1, x0`: the thread pointer plus the offset a relaxed general-dynamic sequence
computed. -/
def ADD_X0_X1_X0 : ℕ := 0x8b000020

/-- Whether a general-dynamic sequence whose `add` is at `at_` is followed by
`bl __tls_get_addr; nop`. -/
def gdTailIsCallNop (out : List UInt8) (at_ : ℕ) : Bool :=
  let call := (checkedAdd at_ 4).bind (readInsn out)
  let nop := (checkedAdd at_ 8).bind (readInsn out)
  call.any (fun c => c &&& 0xfc000000 == 0x94000000) && nop == some NOP

/-! ### Relaxation -/

def hi16 (v : ℤ) : ℕ := asU64 v >>> 16 % 2 ^ 32 &&& 0xffff

def lo16 (v : ℤ) : ℕ := asU64 v % 2 ^ 32 &&& 0xffff

def pageDelta (values : RelaxValues) (target : ℕ) : ℤ :=
  asI64 (asI64 (page target) - asI64 (page values.place))

/-- Rewrites one instruction of a relaxed TLS sequence. -/
def relaxTls (out : List UInt8) (offset : ℕ) (kind : Kind) (rType : ℕ) (values : RelaxValues) :
    Except ApplyError (List UInt8) :=
  let tpoff := values.tpoff
  match kind with
  | .ieToLe =>
    if fitsUnsigned tpoff 32 = false then .error .overflow
    else do
      let register := destinationRegister (← get out offset)
      if rType = R_AARCH64_TLSIE_ADR_GOTTPREL_PAGE21 then
        put out offset (movz register (hi16 tpoff) 16)
      else if rType = R_AARCH64_TLSIE_LD64_GOTTPREL_LO12_NC then
        put out offset (movk register (lo16 tpoff) 0)
      else if rType = R_AARCH64_TLSIE_MOVW_GOTTPREL_G1 then do
        patch out offset (← get out offset) (.movw 16 .none) tpoff
      else if rType = R_AARCH64_TLSIE_MOVW_GOTTPREL_G0_NC then do
        patch out offset (← get out offset) (.movw 0 .none) tpoff
      else .error .badInstruction
  | .descToLe | .descCallToLe =>
    if fitsUnsigned tpoff 32 = false then .error .overflow
    else if rType = R_AARCH64_TLSDESC_ADR_PAGE21 then put out offset (movz 0 (hi16 tpoff) 16)
    else if rType = R_AARCH64_TLSDESC_LD64_LO12 then put out offset (movk 0 (lo16 tpoff) 0)
    else if rType = R_AARCH64_TLSDESC_ADD_LO12 ∨ rType = R_AARCH64_TLSDESC_CALL then
      put out offset NOP
    else .error .badInstruction
  | .descToIe =>
    if rType = R_AARCH64_TLSDESC_ADR_PAGE21 then
      patch out offset (adrp 0) .adrp21 (pageDelta values values.got)
    else if rType = R_AARCH64_TLSDESC_LD64_LO12 then
      patch out offset (ldrOffset 0 0) (.ldSt 3 false) (asI64 values.got)
    else if rType = R_AARCH64_TLSDESC_ADD_LO12 ∨ rType = R_AARCH64_TLSDESC_CALL then
      put out offset NOP
    else .error .badInstruction
  | .gdToLe =>
    if rType = R_AARCH64_TLSGD_ADR_PAGE21 then
      if gdTailIsCallNop out (wrappingAdd offset 4) then
        if fitsUnsigned tpoff 32 = false then .error .overflow
        else put out offset (movz 0 (hi16 tpoff) 16)
      else put out offset MRS_TPIDR_X0
    else if rType = R_AARCH64_TLSGD_ADD_LO12_NC then
      if gdTailIsCallNop out offset then
        if fitsUnsigned tpoff 32 = false then .error .overflow
        else do
          let out ← put out offset (movk 0 (lo16 tpoff) 0)
          let out ← put out (wrappingAdd offset 4) (MRS_TPIDR_X0 ||| 1)
          put out (wrappingAdd offset 8) ADD_X0_X1_X0
      -- Without the trailing `nop` there are only three slots: `mrs; add hi12; add lo12`, which
      -- needs a 24-bit offset.
      else if fitsUnsigned tpoff 24 = false then .error .overflow
      else do
        let out ← patch out offset (addImm 0 0) .addHi12 tpoff
        patch out (wrappingAdd offset 4) (addImm 0 0) .add12 tpoff
    else .error .badInstruction
  | .gdToIe =>
    if rType = R_AARCH64_TLSGD_ADR_PAGE21 then
      patch out offset (adrp 0) .adrp21 (pageDelta values values.got)
    else if rType = R_AARCH64_TLSGD_ADD_LO12_NC then
      if gdTailIsCallNop out offset = false then .error .badInstruction
      else do
        let out ← patch out offset (ldrOffset 0 0) (.ldSt 3 false) (asI64 values.got)
        let out ← put out (wrappingAdd offset 4) (MRS_TPIDR_X0 ||| 1)
        put out (wrappingAdd offset 8) ADD_X0_X1_X0
    else .error .badInstruction
  | .ldToLe =>
    -- `tpoff` is the distance from the thread pointer to the start of the module's TLS block.
    if rType = R_AARCH64_TLSLD_ADR_PAGE21 then put out offset MRS_TPIDR_X0
    else if rType = R_AARCH64_TLSLD_ADD_LO12_NC then do
      let out ← patch out offset (addImm 0 0) .add12Checked tpoff
      put out (wrappingAdd offset 4) NOP
    else .error .badInstruction
  | _ => .error .badInstruction

end Qld.Elf.Arch
