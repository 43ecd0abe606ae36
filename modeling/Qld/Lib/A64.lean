import Qld.Lib.LittleEndian

/-!
# A fragment of the A64 instruction set

The instructions that materialise addresses, as the architecture encodes and executes them.  A
64-bit value is a natural number below `2 ^ 64`.

* `Insn`, `decode` — the instructions, and the words that encode them;
* `Cpu`, `step`, `run` — the state a program sees, and straight-line execution;
* `fetch` — the words of a piece of code;
* `decode_movz`, `decode_addImm`, ... — each encoding, field by field.
-/

namespace Qld.Lib.A64

/-! ### Instructions -/

/-- An instruction; immediates are the values the architecture computes with. -/
inductive Insn where
  | movz (rd imm shift : ℕ)
  | movk (rd imm shift : ℕ)
  | mrsTpidr (rd : ℕ)
  | addImm (rd rn imm : ℕ)
  | addReg (rd rn rm : ℕ)
  | adrp (rd : ℕ) (offset : ℤ)
  | adr (rd : ℕ) (offset : ℤ)
  | ldr (rt rn imm : ℕ)
  | nop
  deriving DecidableEq, Repr

/-- A field of `width` bits in two's complement. -/
def signExtend (width value : ℕ) : ℤ :=
  if value < 2 ^ (width - 1) then value else value - 2 ^ width

/-- The instruction a word encodes, if it is one of these. -/
def decode (word : ℕ) : Option Insn :=
  let rd := bits word 0 5
  let rn := bits word 5 5
  if bits word 23 9 = 0x1a5 then some (.movz rd (bits word 5 16) (16 * bits word 21 2))
  else if bits word 23 9 = 0x1e5 then some (.movk rd (bits word 5 16) (16 * bits word 21 2))
  -- The system register `TPIDR_EL0` is S3_3_C13_C0_2.
  else if bits word 5 27 = 0x6a9de82 then some (.mrsTpidr rd)
  -- Bit 22 shifts the immediate to the left by twelve.
  else if bits word 23 9 = 0x122 then
    some (.addImm rd rn (bits word 10 12 * 2 ^ (12 * bits word 22 1)))
  -- The shifted register form, without a shift.
  else if bits word 21 11 = 0x458 ∧ bits word 10 6 = 0 then some (.addReg rd rn (bits word 16 5))
  else if bits word 31 1 = 1 ∧ bits word 24 5 = 0x10 then
    some (.adrp rd (signExtend 21 (bits word 29 2 + 4 * bits word 5 19) * 4096))
  else if bits word 22 10 = 0x3e5 then some (.ldr rd rn (8 * bits word 10 12))
  else if bits word 31 1 = 0 ∧ bits word 24 5 = 0x10 then
    some (.adr rd (signExtend 21 (bits word 29 2 + 4 * bits word 5 19)))
  else if word = 0xd503201f then some .nop
  else none

/-! ### Execution -/

/-- The state of the processor.  `load` gives the doubleword at an address. -/
structure Cpu where
  x : ℕ → ℕ
  sp : ℕ
  tpidr : ℕ
  pc : ℕ
  load : ℕ → ℕ

namespace Cpu

/-- Register 31 as a source is zero. -/
def reg (cpu : Cpu) (n : ℕ) : ℕ := if n = 31 then 0 else cpu.x n

/-- Register 31 as a base is the stack pointer. -/
def regSp (cpu : Cpu) (n : ℕ) : ℕ := if n = 31 then cpu.sp else cpu.x n

/-- What is written to register 31 is dropped. -/
def set (cpu : Cpu) (n value : ℕ) : Cpu :=
  if n = 31 then cpu else { cpu with x := Function.update cpu.x n value }

def setSp (cpu : Cpu) (n value : ℕ) : Cpu :=
  if n = 31 then { cpu with sp := value } else { cpu with x := Function.update cpu.x n value }

def next (cpu : Cpu) : Cpu := { cpu with pc := (cpu.pc + 4) % 2 ^ 64 }

variable (cpu : Cpu)

@[simp] theorem set_x_self {n : ℕ} (value : ℕ) (h : n ≠ 31) :
    (cpu.set n value).x n = value := by
  rw [set, if_neg h]
  exact Function.update_self n value cpu.x

@[simp] theorem set_x_of_ne {n m : ℕ} (value : ℕ) (h : m ≠ n) :
    (cpu.set n value).x m = cpu.x m := by
  rw [set]
  split
  · rfl
  · exact Function.update_of_ne h value cpu.x

@[simp] theorem setSp_x_self {n : ℕ} (value : ℕ) (h : n ≠ 31) :
    (cpu.setSp n value).x n = value := by
  rw [setSp, if_neg h]
  exact Function.update_self n value cpu.x

@[simp] theorem set_pc (n value : ℕ) : (cpu.set n value).pc = cpu.pc := by
  rw [set]; split <;> rfl

@[simp] theorem set_tpidr (n value : ℕ) : (cpu.set n value).tpidr = cpu.tpidr := by
  rw [set]; split <;> rfl

@[simp] theorem set_load (n value : ℕ) : (cpu.set n value).load = cpu.load := by
  rw [set]; split <;> rfl

@[simp] theorem next_x : cpu.next.x = cpu.x := rfl

@[simp] theorem next_tpidr : cpu.next.tpidr = cpu.tpidr := rfl

@[simp] theorem next_load : cpu.next.load = cpu.load := rfl

@[simp] theorem reg_of_ne {n : ℕ} (h : n ≠ 31) : cpu.reg n = cpu.x n := if_neg h

@[simp] theorem regSp_of_ne {n : ℕ} (h : n ≠ 31) : cpu.regSp n = cpu.x n := if_neg h

end Cpu

/-- `value` with sixteen bits from `shift` on replaced. -/
def keep (value imm shift : ℕ) : ℕ :=
  value / 2 ^ (shift + 16) * 2 ^ (shift + 16) + imm * 2 ^ shift + value % 2 ^ shift

/-- What an instruction does. -/
def step (cpu : Cpu) : Insn → Cpu
  | .movz rd imm shift => (cpu.set rd (imm * 2 ^ shift)).next
  | .movk rd imm shift => (cpu.set rd (keep (cpu.reg rd) imm shift)).next
  | .mrsTpidr rd => (cpu.set rd cpu.tpidr).next
  | .addImm rd rn imm => (cpu.setSp rd ((cpu.regSp rn + imm) % 2 ^ 64)).next
  | .addReg rd rn rm => (cpu.set rd ((cpu.reg rn + cpu.reg rm) % 2 ^ 64)).next
  | .adrp rd offset =>
    (cpu.set rd (((cpu.pc / 4096 * 4096 : ℕ) + offset) % 2 ^ 64).toNat).next
  | .adr rd offset => (cpu.set rd ((cpu.pc + offset) % 2 ^ 64).toNat).next
  | .ldr rt rn imm => (cpu.set rt (cpu.load ((cpu.regSp rn + imm) % 2 ^ 64))).next
  | .nop => cpu.next

/-- The words execute one after the other. -/
def run : List ℕ → Cpu → Option Cpu
  | [], cpu => some cpu
  | word :: words, cpu => (decode word).bind fun insn => run words (step cpu insn)

/-- The `count` words from `offset` on. -/
def fetch (code : List UInt8) (offset : ℕ) : ℕ → Option (List ℕ)
  | 0 => some []
  | count + 1 => (readLe 4 code offset).bind fun word =>
    (fetch code (offset + 4) count).map (word :: ·)

variable {word rd imm : ℕ}

theorem run_cons {insn : Insn} (h : decode word = some insn) (words : List ℕ) (cpu : Cpu) :
    run (word :: words) cpu = run words (step cpu insn) := by
  rw [run, h, Option.bind_some]

theorem fetch_succ {code : List UInt8} {offset count : ℕ} {words : List ℕ}
    (h : readLe 4 code offset = some word) (hrest : fetch code (offset + 4) count = some words) :
    fetch code offset (count + 1) = some (word :: words) := by
  rw [fetch, h, Option.bind_some, hrest, Option.map_some]

/-! ### Encodings -/

theorem decode_movz (hw : ℕ) (hrd : rd < 32) (himm : imm < 2 ^ 16) (hhw : hw < 4) :
    decode (0xd2800000 + rd + imm * 2 ^ 5 + hw * 2 ^ 21) = some (.movz rd imm (16 * hw)) := by
  have h : bits (0xd2800000 + rd + imm * 2 ^ 5 + hw * 2 ^ 21) 23 9 = 0x1a5 := by
    rw [bits]; omega
  rw [decode, if_pos h, bits, bits, bits]
  congr 2 <;> omega

theorem decode_movk (hw : ℕ) (hrd : rd < 32) (himm : imm < 2 ^ 16) (hhw : hw < 4) :
    decode (0xf2800000 + rd + imm * 2 ^ 5 + hw * 2 ^ 21) = some (.movk rd imm (16 * hw)) := by
  have h : bits (0xf2800000 + rd + imm * 2 ^ 5 + hw * 2 ^ 21) 23 9 = 0x1e5 := by
    rw [bits]; omega
  rw [decode, h, if_neg (by decide), if_pos rfl, bits, bits, bits]
  congr 2 <;> omega

theorem decode_addImm (rd rn sh : ℕ) (hrd : rd < 32) (hrn : rn < 32) (himm : imm < 2 ^ 12)
    (hsh : sh < 2) :
    decode (0x91000000 + rd + rn * 2 ^ 5 + imm * 2 ^ 10 + sh * 2 ^ 22) =
      some (.addImm rd rn (imm * 2 ^ (12 * sh))) := by
  generalize hword : 0x91000000 + rd + rn * 2 ^ 5 + imm * 2 ^ 10 + sh * 2 ^ 22 = word
  have htop : bits word 23 9 = 0x122 := by rw [bits]; omega
  have hsys : bits word 5 27 ≠ 0x6a9de82 := by rw [bits]; omega
  have hd : bits word 0 5 = rd := by rw [bits]; omega
  have hn : bits word 5 5 = rn := by rw [bits]; omega
  have hi : bits word 10 12 = imm := by rw [bits]; omega
  have hs : bits word 22 1 = sh := by rw [bits]; omega
  rw [decode, htop, if_neg (by decide), if_neg (by decide), if_neg hsys, if_pos rfl, hd, hn, hi, hs]

theorem decode_adrp (rd lo hi : ℕ) (hrd : rd < 32) (hlo : lo < 4) (hhi : hi < 2 ^ 19) :
    decode (0x90000000 + rd + hi * 2 ^ 5 + lo * 2 ^ 29) =
      some (.adrp rd (signExtend 21 (lo + 4 * hi) * 4096)) := by
  generalize hword : 0x90000000 + rd + hi * 2 ^ 5 + lo * 2 ^ 29 = word
  have hclass : bits word 31 1 = 1 ∧ bits word 24 5 = 0x10 := by
    rw [bits, bits]; omega
  have hmov : bits word 23 9 ≠ 0x1a5 ∧ bits word 23 9 ≠ 0x1e5 ∧ bits word 23 9 ≠ 0x122 := by
    rw [bits]; omega
  have hsys : bits word 5 27 ≠ 0x6a9de82 := by rw [bits]; omega
  have hreg : ¬(bits word 21 11 = 0x458 ∧ bits word 10 6 = 0) := by rw [bits, bits]; omega
  have hd : bits word 0 5 = rd := by rw [bits]; omega
  have hl : bits word 29 2 = lo := by rw [bits]; omega
  have hh : bits word 5 19 = hi := by rw [bits]; omega
  rw [decode, if_neg hmov.1, if_neg hmov.2.1, if_neg hsys, if_neg hmov.2.2, if_neg hreg,
    if_pos hclass, hd, hl, hh]

theorem decode_adr (rd lo hi : ℕ) (hrd : rd < 32) (hlo : lo < 4) (hhi : hi < 2 ^ 19) :
    decode (0x10000000 + rd + hi * 2 ^ 5 + lo * 2 ^ 29) =
      some (.adr rd (signExtend 21 (lo + 4 * hi))) := by
  generalize hword : 0x10000000 + rd + hi * 2 ^ 5 + lo * 2 ^ 29 = word
  have hclass : bits word 31 1 = 0 ∧ bits word 24 5 = 0x10 := by
    rw [bits, bits]; omega
  have hmov : bits word 23 9 ≠ 0x1a5 ∧ bits word 23 9 ≠ 0x1e5 ∧ bits word 23 9 ≠ 0x122 := by
    rw [bits]; omega
  have hsys : bits word 5 27 ≠ 0x6a9de82 := by rw [bits]; omega
  have hreg : ¬(bits word 21 11 = 0x458 ∧ bits word 10 6 = 0) := by rw [bits, bits]; omega
  have hadrp : ¬(bits word 31 1 = 1 ∧ bits word 24 5 = 0x10) := by rw [bits, bits]; omega
  have hldr : bits word 22 10 ≠ 0x3e5 := by rw [bits]; omega
  have hd : bits word 0 5 = rd := by rw [bits]; omega
  have hl : bits word 29 2 = lo := by rw [bits]; omega
  have hh : bits word 5 19 = hi := by rw [bits]; omega
  rw [decode, if_neg hmov.1, if_neg hmov.2.1, if_neg hsys, if_neg hmov.2.2, if_neg hreg,
    if_neg hadrp, if_neg hldr, if_pos hclass, hd, hl, hh]

theorem decode_ldr (rt rn : ℕ) (hrt : rt < 32) (hrn : rn < 32) (himm : imm < 2 ^ 12) :
    decode (0xf9400000 + rt + rn * 2 ^ 5 + imm * 2 ^ 10) = some (.ldr rt rn (8 * imm)) := by
  generalize hword : 0xf9400000 + rt + rn * 2 ^ 5 + imm * 2 ^ 10 = word
  have hclass : bits word 22 10 = 0x3e5 := by rw [bits]; omega
  have hmov : bits word 23 9 ≠ 0x1a5 ∧ bits word 23 9 ≠ 0x1e5 ∧ bits word 23 9 ≠ 0x122 := by
    rw [bits]; omega
  have hsys : bits word 5 27 ≠ 0x6a9de82 := by rw [bits]; omega
  have hreg : ¬(bits word 21 11 = 0x458 ∧ bits word 10 6 = 0) := by rw [bits, bits]; omega
  have hadr : ¬(bits word 31 1 = 1 ∧ bits word 24 5 = 0x10) := by rw [bits, bits]; omega
  have ht : bits word 0 5 = rt := by rw [bits]; omega
  have hn : bits word 5 5 = rn := by rw [bits]; omega
  have hi : bits word 10 12 = imm := by rw [bits]; omega
  rw [decode, if_neg hmov.1, if_neg hmov.2.1, if_neg hsys, if_neg hmov.2.2, if_neg hreg,
    if_neg hadr, if_pos hclass, ht, hn, hi]

example : decode 0x8b000020 = some (.addReg 0 1 0) ∧ decode 0xd503201f = some .nop := by decide

end Qld.Lib.A64
