import Qld.Lib.WordFields

/-!
# A fragment of the Power instruction set

The instructions that build an address in a register and go there.  A 64-bit value is a natural
number below `2 ^ 64`; bit 0 of a word is its least significant one.

* `Insn`, `decode` — the instructions, and the words that encode them;
* `Cpu`, `exec`, `run` — the state a program sees, and execution of a piece of code;
* `load`, `store` — doublewords in memory, in either byte order;
* `load_store_of_apart` — what a store leaves alone.
-/

namespace Qld.Lib.Ppc64

open A64 (signExtend)

/-! ### Instructions -/

/-- An instruction; displacements are the numbers the architecture computes with. -/
inductive Insn where
  | addis (rt ra : ℕ) (si : ℤ)
  | addi (rt ra : ℕ) (si : ℤ)
  | ld (rt ra : ℕ) (ds : ℤ)
  | std (rs ra : ℕ) (ds : ℤ)
  | mfspr (rt spr : ℕ)
  | mtspr (spr rs : ℕ)
  /-- Branches always, and links. -/
  | bcl (offset : ℤ)
  | bctr
  | nop
  deriving DecidableEq, Repr

/-- The link register. -/
def LR : ℕ := 8

/-- The count register. -/
def CTR : ℕ := 9

/-- How an access keeps its displacement. -/
inductive Form where
  | d
  | ds
  | dq
  deriving DecidableEq, Repr

/-- The lowest bits of a word that its form keeps from the displacement. -/
def Form.reserved : Form → ℕ
  | .d => 0
  | .ds => 2
  | .dq => 4

/-- The displacement of a word in a form. -/
def displacement (form : Form) (word : ℕ) : ℤ :=
  match form with
  | .d => signExtend 16 (bits word 0 16)
  | .ds => signExtend 16 (bits word 2 14 * 4)
  | .dq => signExtend 16 (bits word 4 12 * 16)

/-- The instruction a word encodes, if it is one of these. -/
def decode (word : ℕ) : Option Insn :=
  let opcode := bits word 26 6
  let rt := bits word 21 5
  let ra := bits word 16 5
  if opcode = 14 then some (.addi rt ra (displacement .d word))
  else if opcode = 15 then some (.addis rt ra (displacement .d word))
  else if opcode = 58 ∧ bits word 0 2 = 0 then some (.ld rt ra (displacement .ds word))
  else if opcode = 62 ∧ bits word 0 2 = 0 then some (.std rt ra (displacement .ds word))
  -- The halves of the number of a special register are swapped.
  else if opcode = 31 ∧ bits word 0 11 = 0x2a6 then
    some (.mfspr rt (bits word 16 5 + 32 * bits word 11 5))
  else if opcode = 31 ∧ bits word 0 11 = 0x3a6 then
    some (.mtspr (bits word 16 5 + 32 * bits word 11 5) rt)
  else if opcode = 16 ∧ rt = 20 ∧ bits word 0 2 = 1 then some (.bcl (displacement .ds word))
  else if word = 0x4e800420 then some .bctr
  else if word = 0x60000000 then some .nop
  else none

theorem ite_ne {α : Type*} {c : Prop} [Decidable c] {a b x : α} (ha : a ≠ x) (hb : b ≠ x) :
    (if c then a else b) ≠ x := by
  split
  · exact ha
  · exact hb

theorem ite_eq_iff_of_ne {α : Type*} {c : Prop} [Decidable c] {a b x : α} (hb : b ≠ x) :
    (if c then a else b) = x ↔ c ∧ a = x := by
  rw [ite_eq_iff, or_iff_left fun h => hb h.2]

section Decode

variable {word rt ra : ℕ} {displaced : ℤ}

theorem decode_eq_addi : decode word = some (.addi rt ra displaced) ↔
    bits word 26 6 = 14 ∧ bits word 21 5 = rt ∧ bits word 16 5 = ra ∧
      displacement .d word = displaced := by
  simp only [decode]
  rw [ite_eq_iff_of_ne (by repeat' apply ite_ne <;> simp)]
  simp

theorem decode_eq_addis : decode word = some (.addis rt ra displaced) ↔
    bits word 26 6 = 15 ∧ bits word 21 5 = rt ∧ bits word 16 5 = ra ∧
      displacement .d word = displaced := by
  simp only [decode]
  by_cases haddi : bits word 26 6 = 14
  · rw [if_pos haddi]
    exact iff_of_false (by simp) fun hfields => by omega
  rw [if_neg haddi]
  rw [ite_eq_iff_of_ne (by repeat' apply ite_ne <;> simp)]
  simp

theorem decode_eq_ld : decode word = some (.ld rt ra displaced) ↔
    (bits word 26 6 = 58 ∧ bits word 0 2 = 0) ∧ bits word 21 5 = rt ∧ bits word 16 5 = ra ∧
      displacement .ds word = displaced := by
  simp only [decode]
  by_cases haddi : bits word 26 6 = 14
  · rw [if_pos haddi]
    exact iff_of_false (by simp) fun hfields => by omega
  by_cases haddis : bits word 26 6 = 15
  · rw [if_neg haddi, if_pos haddis]
    exact iff_of_false (by simp) fun hfields => by omega
  rw [if_neg haddi, if_neg haddis]
  rw [ite_eq_iff_of_ne (by repeat' apply ite_ne <;> simp)]
  simp

end Decode

/-! ### Memory -/

/-- Memory, by address. -/
abbrev Memory := ℕ → UInt8

/-- The doubleword at an address. -/
def load (big : Bool) (mem : Memory) (address : ℕ) : ℕ :=
  let bytes := (List.range 8).map fun k => mem ((address + k) % 2 ^ 64)
  leValue (if big then bytes.reverse else bytes)

/-- The memory after a doubleword was stored. -/
def store (big : Bool) (mem : Memory) (address value : ℕ) : Memory :=
  let bytes := if big then (leBytes 8 value).reverse else leBytes 8 value
  fun b => (bytes[(b + 2 ^ 64 - address) % 2 ^ 64]?).getD (mem b)

/-- Two doublewords that do not overlap. -/
def Apart (a b : ℕ) : Prop := 8 ≤ (a + 2 ^ 64 - b) % 2 ^ 64 ∧ 8 ≤ (b + 2 ^ 64 - a) % 2 ^ 64

section Store

variable {big : Bool} {mem : Memory} {address : ℕ}

theorem store_of_apart (value : ℕ) {b : ℕ} (h : 8 ≤ (b + 2 ^ 64 - address) % 2 ^ 64) :
    store big mem address value b = mem b := by
  have hlen : (if big then (leBytes 8 value).reverse else leBytes 8 value).length = 8 := by
    cases big
    · exact length_leBytes 8 value
    · exact List.length_reverse.trans (length_leBytes 8 value)
  show ((if big then (leBytes 8 value).reverse else leBytes 8 value)[
    (b + 2 ^ 64 - address) % 2 ^ 64]?).getD (mem b) = _
  rw [List.getElem?_eq_none (by omega)]
  rfl

/-- **A store elsewhere.** -/
theorem load_store_of_apart (value : ℕ) {b : ℕ} (haddress : address < 2 ^ 64)
    (h : Apart b address) : load big (store big mem address value) b = load big mem b := by
  have hbytes : (List.range 8).map (fun k => store big mem address value ((b + k) % 2 ^ 64)) =
      (List.range 8).map fun k => mem ((b + k) % 2 ^ 64) := by
    refine List.map_congr_left fun k hk => store_of_apart value ?_
    have hk8 : k < 8 := List.mem_range.mp hk
    obtain ⟨h₁, h₂⟩ := h
    omega
  rw [load, load, hbytes]

end Store

/-! ### Execution -/

/-- The state of the processor. -/
structure Cpu where
  r : ℕ → ℕ
  lr : ℕ
  ctr : ℕ
  pc : ℕ
  mem : Memory

namespace Cpu

/-- Register 0 as a base is zero. -/
def base (cpu : Cpu) (ra : ℕ) : ℕ := if ra = 0 then 0 else cpu.r ra

/-- The address that a base and a displacement make up. -/
def address (cpu : Cpu) (ra : ℕ) (displacement : ℤ) : ℕ :=
  ((cpu.base ra + displacement) % 2 ^ 64).toNat

def set (cpu : Cpu) (rt value : ℕ) : Cpu := { cpu with r := Function.update cpu.r rt value }

def next (cpu : Cpu) : Cpu := { cpu with pc := (cpu.pc + 4) % 2 ^ 64 }

end Cpu

/-- What an instruction does; `none` for other special registers. -/
def exec (big : Bool) (cpu : Cpu) : Insn → Option Cpu
  | .addis rt ra si => some (cpu.set rt (cpu.address ra (si * 2 ^ 16))).next
  | .addi rt ra si => some (cpu.set rt (cpu.address ra si)).next
  | .ld rt ra ds => some (cpu.set rt (load big cpu.mem (cpu.address ra ds))).next
  | .std rs ra ds =>
    some { cpu with mem := store big cpu.mem (cpu.address ra ds) (cpu.r rs) }.next
  | .mfspr rt spr =>
    if spr = LR then some (cpu.set rt cpu.lr).next
    else if spr = CTR then some (cpu.set rt cpu.ctr).next
    else none
  | .mtspr spr rs =>
    if spr = LR then some { cpu with lr := cpu.r rs }.next
    else if spr = CTR then some { cpu with ctr := cpu.r rs }.next
    else none
  | .bcl offset =>
    some { cpu with
      lr := (cpu.pc + 4) % 2 ^ 64
      pc := ((cpu.pc + offset) % 2 ^ 64).toNat }
  -- The lowest bits of the count register are ignored.
  | .bctr => some { cpu with pc := cpu.ctr / 4 * 4 }
  | .nop => some cpu.next

/-- The word at the program counter, of code that starts at an address. -/
def fetch (code : List ℕ) (start pc : ℕ) : Option ℕ :=
  let offset := (pc + 2 ^ 64 - start) % 2 ^ 64
  if offset % 4 = 0 then code[offset / 4]? else none

def step (big : Bool) (code : List ℕ) (start : ℕ) (cpu : Cpu) : Option Cpu :=
  ((fetch code start cpu.pc).bind decode).bind (exec big cpu)

/-- A number of steps. -/
def run (big : Bool) (code : List ℕ) (start : ℕ) : ℕ → Cpu → Option Cpu
  | 0, cpu => some cpu
  | n + 1, cpu => (step big code start cpu).bind (run big code start n)

/-- The address of a word of code. -/
def codeAt (start k : ℕ) : ℕ := (start + 4 * k) % 2 ^ 64

theorem codeAt_succ (start k : ℕ) : (codeAt start k + 4) % 2 ^ 64 = codeAt start (k + 1) := by
  rw [codeAt, codeAt]
  omega

section Exec

variable {big : Bool} {r : ℕ → ℕ} {lr ctr pc rt : ℕ} {mem : Memory}

theorem exec_mflr : exec big ⟨r, lr, ctr, pc, mem⟩ (.mfspr rt LR) =
    some ⟨Function.update r rt lr, lr, ctr, (pc + 4) % 2 ^ 64, mem⟩ := rfl

theorem exec_mtlr : exec big ⟨r, lr, ctr, pc, mem⟩ (.mtspr LR rt) =
    some ⟨r, r rt, ctr, (pc + 4) % 2 ^ 64, mem⟩ := rfl

theorem exec_mtctr : exec big ⟨r, lr, ctr, pc, mem⟩ (.mtspr CTR rt) =
    some ⟨r, lr, r rt, (pc + 4) % 2 ^ 64, mem⟩ := rfl

/-- A branch to the next word, for what it leaves in the link register. -/
theorem exec_bcl_next : exec big ⟨r, lr, ctr, pc, mem⟩ (.bcl 4) =
    some ⟨r, (pc + 4) % 2 ^ 64, ctr, (pc + 4) % 2 ^ 64, mem⟩ := by
  have hnext : ((pc + 4 : ℤ) % 2 ^ 64).toNat = (pc + 4) % 2 ^ 64 := by omega
  rw [exec, hnext]

end Exec

section Run

variable {big : Bool} {code : List ℕ} {start n k word : ℕ} {insn : Insn}

theorem run_succ {cpu : Cpu} (hpc : cpu.pc = codeAt start k) (hsmall : 4 * k < 2 ^ 64)
    (hstart : start < 2 ^ 64) (hword : code[k]? = some word) (hdecode : decode word = some insn) :
    run big code start (n + 1) cpu = (exec big cpu insn).bind (run big code start n) := by
  have hoffset : (cpu.pc + 2 ^ 64 - start) % 2 ^ 64 = 4 * k := by
    rw [hpc, codeAt]
    omega
  rw [run, step, fetch, hoffset, if_pos (Nat.mul_mod_right 4 k),
    Nat.mul_div_cancel_left k (by decide), hword, Option.bind_some, hdecode, Option.bind_some]

theorem run_next {r r' : ℕ → ℕ} {lr lr' ctr ctr' : ℕ} {mem mem' : Memory} (hsmall : 4 * k < 2 ^ 64)
    (hstart : start < 2 ^ 64) (hword : code[k]? = some word) (hdecode : decode word = some insn)
    (hexec : exec big ⟨r, lr, ctr, codeAt start k, mem⟩ insn =
      some ⟨r', lr', ctr', (codeAt start k + 4) % 2 ^ 64, mem'⟩) :
    run big code start (n + 1) ⟨r, lr, ctr, codeAt start k, mem⟩ =
      run big code start n ⟨r', lr', ctr', codeAt start (k + 1), mem'⟩ := by
  rw [run_succ rfl hsmall hstart hword hdecode, hexec, Option.bind_some, codeAt_succ]

end Run

end Qld.Lib.Ppc64
