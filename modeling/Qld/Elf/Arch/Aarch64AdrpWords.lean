import Qld.Elf.Arch.Aarch64Correct
import Qld.Lib.BinarySearch

/-!
# AArch64 ADRP relaxation

The pairs of instructions that form an address, in a section that was relocated already.  A pair
that loads an address from the GOT becomes one that computes it; a pair that computes an address
nearby becomes a single `adr`.

* `gotPairIsRelaxable` — a pair that loads a GOT entry;
* `relaxAdrpAdd` — a pair that computes an address, rewritten when the address is near;
* `scan`, `rewritePairs` — the two passes of `relaxAdrpPairs`;
* `decode_of_isAdrp`, `decode_of_isAddImm64` — what the masks of the source accept;
* `Leaves v₀ v₁ place n value` — two words that leave a value in a register and nothing else;
* `Rewrites out at_ v₀ v₁ out'` — two words were stored, and nothing else;
* `relaxAdrpAdd_spec`, `rewritePair_spec` — what a rewritten pair is, and what it leaves.
-/

namespace Qld.Elf.Arch

open Qld.Lib Qld.Arch.Aarch64

def R_AARCH64_ADR_PREL_PG_HI21 : ℕ := 0x113
def R_AARCH64_ADD_ABS_LO12_NC : ℕ := 0x115
def R_AARCH64_JUMP26 : ℕ := 0x11a
def R_AARCH64_ADR_GOT_PAGE : ℕ := 0x137
def R_AARCH64_LD64_GOT_LO12_NC : ℕ := 0x138

/-- The distance from the page of a place to the page of a target, an `i64`. -/
def pagesBetween (place target : ℕ) : ℤ := asI64 (asI64 (page target) - asI64 (page place))

/-- The distance that an `adr` right after `place` needs, an `i64`. -/
def adrDelta (place target : ℕ) : ℤ := asI64 (asI64 target - asI64 (wrappingAdd place 4))

/-- Whether an `adr` right after `place` reaches `target`. -/
def InReach (place target : ℕ) : Prop :=
  -ADR_REACH ≤ adrDelta place target ∧ adrDelta place target < ADR_REACH

instance (place target : ℕ) : Decidable (InReach place target) :=
  inferInstanceAs (Decidable (_ ∧ _))

/-- Whether the relocated `adrp`/`ldr` pair loads the GOT entry of a symbol at `target` in a way
that is relaxed. -/
def gotPairIsRelaxable (out : List UInt8) (base : ℕ) (adrp ldr : Relocation) (target : ℕ) : Bool :=
  if checkedAdd adrp.offset 4 ≠ some ldr.offset ∨ adrp.symbol ≠ ldr.symbol ∨ adrp.addend ≠ 0 ∨
      ldr.addend ≠ 0 then false
  else
    match get out adrp.offset, get out ldr.offset with
    | .ok first, .ok second =>
      let register := destinationRegister first
      if isAdrp first = false ∨ isLoadStoreUnsigned second = false ∨ second >>> 31 = 0 ∨
          destinationRegister second ≠ register ∨ baseRegister second ≠ register then false
      else
        let place := wrappingAdd base adrp.offset
        fitsSigned (pagesBetween place target) 33
    | _, _ => false

/-- Two stores, the second only after the first; whether both succeeded. -/
def putTwo (out : List UInt8) (first firstWord second secondWord : ℕ) : List UInt8 × Bool :=
  match put out first firstWord with
  | .error _ => (out, false)
  | .ok out =>
    match put out second secondWord with
    | .error _ => (out, false)
    | .ok out => (out, true)

/-- Rewrites the `adrp xn; add xn, xn, …` at `offset` into `nop; adr xn, target` when `target` is
within reach of the second instruction.  Each `else` of the source keeps the contents. -/
def relaxAdrpAdd (out : List UInt8) (offset place target : ℕ) : List UInt8 × Bool :=
  (checkedAdd offset 4).elim (out, false) fun addOffset =>
    if ¬InReach place target then (out, false)
    else
      (get out offset).toOption.elim (out, false) fun first =>
        (Field.adr21.encode (adr (destinationRegister first))
            (adrDelta place target)).toOption.elim (out, false) fun word =>
          putTwo out offset NOP addOffset word

/-! ### The first pass -/

/-- The type of a relocation; at a patched offset it counts as a branch. -/
def kindOf (patched : List ℕ) (r : Relocation) : ℕ :=
  if patched ≠ [] ∧ binarySearch patched r.offset = true then R_AARCH64_JUMP26 else r.rType

/-- What the first pass keeps: the contents, the GOT pairs found relaxable with the address of the
symbol, and the symbols with a GOT access that is not. -/
structure Scan where
  out : List UInt8
  pairs : List (Relocation × ℕ)
  unrelaxable : List ℕ

/-- The address that a relocated `adrp xn; add xn, xn, …` computes, for two relocations of such a
pair. -/
def addPairTarget (out : List UInt8) (base : ℕ) (rel next : Relocation) : Option ℕ :=
  if checkedAdd rel.offset 4 ≠ some next.offset ∨ rel.symbol ≠ next.symbol ∨ rel.addend ≠ 0 ∨
      next.addend ≠ 0 then none
  else
    match get out rel.offset, get out next.offset with
    | .ok first, .ok second =>
      let register := destinationRegister first
      if isAdrp first = false ∨ isAddImm64 second = false ∨ destinationRegister second ≠ register ∨
          baseRegister second ≠ register then none
      else
        let place := wrappingAdd base rel.offset
        some (wrappingAdd (asU64 (page place + adrpOffset first)) (addImmediate second))
    | _, _ => none

section Passes

variable (patched : List ℕ) (base : ℕ) (gotTarget : ℕ → Option UInt64)

/-- The symbol's address, when the next relocation makes a relaxable GOT pair with `rel`. -/
def gotPairTarget (out : List UInt8) (rel next : Relocation) : Option ℕ :=
  if kindOf patched next = R_AARCH64_LD64_GOT_LO12_NC then
    (gotTarget rel.symbol).bind fun target =>
      if gotPairIsRelaxable out base rel next target.toNat then some target.toNat else none
  else none

/-- One relocation; whether the next one is consumed too. -/
def scanStep (rel : Relocation) (peek : Option Relocation) (s : Scan) : Scan × Bool :=
  if kindOf patched rel = R_AARCH64_ADR_GOT_PAGE then
    match peek.bind (gotPairTarget patched base gotTarget s.out rel) with
    | some target => ({ s with pairs := s.pairs ++ [(rel, target)] }, true)
    | none => ({ s with unrelaxable := s.unrelaxable ++ [rel.symbol] }, false)
  else if kindOf patched rel = R_AARCH64_LD64_GOT_LO12_NC then
    ({ s with unrelaxable := s.unrelaxable ++ [rel.symbol] }, false)
  else if kindOf patched rel = R_AARCH64_ADR_PREL_PG_HI21 then
    match peek with
    | none => (s, false)
    | some next =>
      if kindOf patched next ≠ R_AARCH64_ADD_ABS_LO12_NC then (s, false)
      else
        match addPairTarget s.out base rel next with
        | none => (s, false)
        | some target =>
          -- The pair was relocated: `adrp` holds the distance of the pages and `add` the low bits.
          let relaxed := relaxAdrpAdd s.out rel.offset (wrappingAdd base rel.offset) target
          ({ s with out := relaxed.1 }, relaxed.2)
  else (s, false)

/-- The loop over the relocations. -/
def scan : List Relocation → Scan → Scan
  | [], s => s
  | [rel], s => (scanStep patched base gotTarget rel none s).1
  | rel :: next :: rest, s =>
    if (scanStep patched base gotTarget rel (some next) s).2 then
      scan rest (scanStep patched base gotTarget rel (some next) s).1
    else scan (next :: rest) (scanStep patched base gotTarget rel (some next) s).1

/-! ### The second pass -/

/-- Rewrites one GOT pair into `adrp xn, sym; add xn, xn, :lo12:sym`, and further when it can. -/
def rewritePair (out : List UInt8) (rel : Relocation) (target : ℕ) : List UInt8 :=
  (get out rel.offset).toOption.elim out fun first =>
    let register := destinationRegister first
    let place := wrappingAdd base rel.offset
    let addOffset := wrappingAdd rel.offset 4
    (patch out rel.offset (adrp register) .adrp21 (pagesBetween place target)).toOption.elim out
      fun out =>
        (patch out addOffset (addImm register register) .add12 (asI64 target)).toOption.elim out
          fun out => (relaxAdrpAdd out rel.offset place target).1

/-- The GOT pairs of the symbols that have no other GOT access. -/
def rewritePairs (unrelaxable : List ℕ) (out : List UInt8) (pairs : List (Relocation × ℕ)) :
    List UInt8 :=
  pairs.foldl (fun out pair =>
    if binarySearch unrelaxable pair.1.symbol then out else rewritePair base out pair.1 pair.2) out

/-- The ADRP relaxations, applied to the relocated contents of a section at address `base`. -/
def relaxAdrpPairs (out : List UInt8) (relocs : List Relocation) : List UInt8 :=
  let s := scan patched base gotTarget relocs ⟨out, [], []⟩
  if s.pairs = [] then s.out
  else rewritePairs base s.unrelaxable.mergeSort s.out s.pairs

end Passes

open Qld.Lib.A64

/-! ### Old words -/

variable {out out' : List UInt8} {at_ word n v₀ v₁ place value target rd first : ℕ}

theorem readInsn_lt (h : readInsn out at_ = some word) :
    word < 2 ^ 32 := by
  obtain ⟨hle, hvalue⟩ := Option.ite_none_right_eq_some.mp h
  obtain rfl := Option.some.inj hvalue
  have hlen : ((out.drop at_).take 4).length = 4 := by
    rw [List.length_take, List.length_drop]
    omega
  obtain ⟨a, b, c, d, hword⟩ := List.length_eq_four.mp hlen
  have ha := a.toNat_lt
  have hb := b.toNat_lt
  have hc := c.toNat_lt
  have hd := d.toNat_lt
  rw [hword]
  simp only [leValue]
  omega

theorem destinationRegister_lt (word : ℕ) : destinationRegister word < 32 := by
  rw [destinationRegister_eq, bits]
  omega

theorem decode_of_isAdrp (hlt : word < 2 ^ 32) (h : isAdrp word = true) :
    decode word = some (.adrp (destinationRegister word) (adrpOffset word)) := by
  have hclass := (isAdrp_iff word).mp h
  have hdecode := decode_adrp (bits word 0 5) (bits word 29 2) (bits word 5 19)
    (Nat.mod_lt _ (by decide)) (Nat.mod_lt _ (by decide)) (Nat.mod_lt _ (by decide))
  rw [destinationRegister_eq, adrpOffset_eq, ← hdecode]
  congr 1
  simp only [bits] at *
  omega

theorem decode_of_isAddImm64 (hlt : word < 2 ^ 32) (h : isAddImm64 word = true) :
    decode word =
      some (.addImm (destinationRegister word) (baseRegister word) (addImmediate word)) := by
  have hclass := (isAddImm64_iff word).mp h
  have hdecode := decode_addImm (bits word 0 5) (bits word 5 5) 0
    (Nat.mod_lt _ (by decide)) (Nat.mod_lt _ (by decide))
    (Nat.mod_lt (word / 2 ^ 10) (by decide : 0 < 2 ^ 12)) (by decide)
  rw [Nat.mul_zero, Nat.pow_zero, Nat.mul_one] at hdecode
  rw [destinationRegister_eq, baseRegister_eq, addImmediate_eq, show bits word 10 12 =
    word / 2 ^ 10 % 2 ^ 12 from rfl, ← hdecode]
  congr 1
  simp only [bits] at *
  omega

theorem decode_of_ldr (hlt : word < 2 ^ 32) (h : bits word 22 10 = 0x3e5) :
    decode word =
      some (.ldr (destinationRegister word) (baseRegister word) (8 * bits word 10 12)) := by
  have hdecode := decode_ldr (bits word 0 5) (bits word 5 5)
    (Nat.mod_lt _ (by decide)) (Nat.mod_lt _ (by decide))
    (Nat.mod_lt (word / 2 ^ 10) (by decide : 0 < 2 ^ 12))
  rw [destinationRegister_eq, baseRegister_eq, show bits word 10 12 =
    word / 2 ^ 10 % 2 ^ 12 from rfl, ← hdecode]
  congr 1
  simp only [bits] at *
  omega

/-! ### What an instruction excludes -/

/-- The fields that tell the instructions of a pair apart. -/
theorem class_of_decode {insn : Insn} (h : decode word = some insn) :
    (∀ rd offset, insn = .adrp rd offset →
      isAdrp word = true ∧ destinationRegister word = rd) ∧
    (∀ rt rn imm, insn = .ldr rt rn imm →
      bits word 22 10 = 0x3e5 ∧ destinationRegister word = rt ∧ baseRegister word = rn) ∧
    (∀ rd rn imm, insn = .addImm rd rn imm →
      bits word 23 9 = 0x122 ∧ destinationRegister word = rd ∧ baseRegister word = rn) ∧
    (∀ rd offset, insn = .adr rd offset → isAdrp word = false ∧ isLoadStoreUnsigned word = false) := by
  rw [destinationRegister_eq, baseRegister_eq]
  simp only [decode] at h
  by_cases hmovz : bits word 23 9 = 0x1a5
  · rw [if_pos hmovz] at h
    obtain rfl := Option.some.inj h
    exact ⟨by simp, by simp, by simp, by simp⟩
  rw [if_neg hmovz] at h
  by_cases hmovk : bits word 23 9 = 0x1e5
  · rw [if_pos hmovk] at h
    obtain rfl := Option.some.inj h
    exact ⟨by simp, by simp, by simp, by simp⟩
  rw [if_neg hmovk] at h
  by_cases hmrs : bits word 5 27 = 0x6a9de82
  · rw [if_pos hmrs] at h
    obtain rfl := Option.some.inj h
    exact ⟨by simp, by simp, by simp, by simp⟩
  rw [if_neg hmrs] at h
  by_cases hadd : bits word 23 9 = 0x122
  · rw [if_pos hadd] at h
    obtain rfl := Option.some.inj h
    refine ⟨by simp, by simp, ?_, by simp⟩
    rintro _ _ _ ⟨⟩
    exact ⟨hadd, rfl, rfl⟩
  rw [if_neg hadd] at h
  by_cases haddReg : bits word 21 11 = 0x458 ∧ bits word 10 6 = 0
  · rw [if_pos haddReg] at h
    obtain rfl := Option.some.inj h
    exact ⟨by simp, by simp, by simp, by simp⟩
  rw [if_neg haddReg] at h
  by_cases hadrp : bits word 31 1 = 1 ∧ bits word 24 5 = 0x10
  · rw [if_pos hadrp] at h
    obtain rfl := Option.some.inj h
    refine ⟨?_, by simp, by simp, by simp⟩
    rintro _ _ ⟨⟩
    exact ⟨(isAdrp_iff word).mpr hadrp, rfl⟩
  rw [if_neg hadrp] at h
  by_cases hldr : bits word 22 10 = 0x3e5
  · rw [if_pos hldr] at h
    obtain rfl := Option.some.inj h
    refine ⟨by simp, ?_, by simp, by simp⟩
    rintro _ _ _ ⟨⟩
    exact ⟨hldr, rfl, rfl⟩
  rw [if_neg hldr] at h
  by_cases hadr : bits word 31 1 = 0 ∧ bits word 24 5 = 0x10
  · rw [if_pos hadr] at h
    obtain rfl := Option.some.inj h
    refine ⟨by simp, by simp, by simp, ?_⟩
    rintro _ _ ⟨⟩
    rw [Bool.eq_false_iff, Bool.eq_false_iff, Ne, Ne, isAdrp_iff, isLoadStoreUnsigned_iff]
    simp only [bits] at hadr ⊢
    omega
  rw [if_neg hadr] at h
  by_cases hnop : word = 0xd503201f
  · rw [if_pos hnop] at h
    obtain rfl := Option.some.inj h
    exact ⟨by simp, by simp, by simp, by simp⟩
  · rw [if_neg hnop] at h
    cases h

/-! ### New words -/

/-- Two words that leave `value` in register `n`, and change nothing else. -/
def Leaves (v₀ v₁ place n value : ℕ) : Prop :=
  ∀ cpu : Cpu, cpu.pc = place → run [v₀, v₁] cpu = some (cpu.set n value).next.next

theorem set_next (cpu : Cpu) (n value : ℕ) : cpu.next.set n value = (cpu.set n value).next := by
  rw [Cpu.set, Cpu.set]
  split <;> rfl

theorem set_set (cpu : Cpu) (n value value' : ℕ) :
    (cpu.set n value).set n value' = cpu.set n value' := by
  rw [Cpu.set, Cpu.set, Cpu.set]
  split
  · rfl
  · simp only [Function.update_idem]

theorem setSp_of_ne (cpu : Cpu) (value : ℕ) (h : n ≠ 31) :
    cpu.setSp n value = cpu.set n value := by
  rw [Cpu.setSp, Cpu.set, if_neg h, if_neg h]

/-- `adrp xn; add xn, xn, #imm` computes an address. -/
theorem leaves_adrp_add {imm : ℕ} {offset : ℤ} (hn : n ≠ 31)
    (h₀ : decode v₀ = some (.adrp n offset)) (h₁ : decode v₁ = some (.addImm n n imm))
    (hvalue : (((page place : ℤ) + offset) % 2 ^ 64 + imm) % 2 ^ 64 = value) :
    Leaves v₀ v₁ place n value := by
  intro cpu hpc
  have hsum : ((((page place : ℤ) + offset) % 2 ^ 64).toNat + imm) % 2 ^ 64 = value := by omega
  rw [run_cons h₀, run_cons h₁, run]
  simp only [step]
  rw [Cpu.regSp_of_ne _ hn, Cpu.next_x, Cpu.set_x_self _ _ hn, setSp_of_ne _ _ hn, set_next,
    set_set, hpc]
  rw [← hsum]
  rfl

theorem leaves_nop_adr {offset : ℤ} (h₁ : decode v₁ = some (.adr n offset))
    (hvalue : (((place + 4) % 2 ^ 64 : ℕ) + offset) % 2 ^ 64 = value) :
    Leaves NOP v₁ place n value := by
  intro cpu hpc
  rw [run_cons decode_nop, run_cons h₁, run]
  simp only [step]
  rw [show cpu.next.pc = (place + 4) % 2 ^ 64 from by rw [← hpc]; rfl, hvalue, Int.toNat_natCast,
    set_next]

/-- From a page to an address, around the end of the address space. -/
theorem add_pagesBetween (place : ℕ) (h : target < 2 ^ 64) :
    (((page place : ℤ) + pagesBetween place target) % 2 ^ 64 + (target % 2 ^ 12 : ℕ)) % 2 ^ 64 =
      target := by
  rw [pagesBetween]
  simp only [asI64, page]
  omega

/-- The address that a relocated pair computes, as the source reads it back. -/
theorem add_page_imm (page imm : ℕ) (offset : ℤ) :
    (((page : ℤ) + offset) % 2 ^ 64 + imm) % 2 ^ 64 =
      wrappingAdd (asU64 (page + offset)) imm := by
  rw [wrappingAdd, asU64]
  omega

theorem pagesBetween_aligned (place target : ℕ) : pagesBetween place target % 4096 = 0 := by
  rw [pagesBetween]
  simp only [asI64, page]
  omega

theorem add_adrDelta (place : ℕ) (h : target < 2 ^ 64) :
    (((place + 4) % 2 ^ 64 : ℕ) + adrDelta place target) % 2 ^ 64 = target := by
  rw [adrDelta]
  simp only [asI64, wrappingAdd]
  omega

theorem inReach_iff : InReach place target ↔
    -2 ^ 20 ≤ adrDelta place target ∧ adrDelta place target < 2 ^ 20 := by
  unfold InReach ADR_REACH
  omega

theorem encode_adr (hrd : rd < 32) {delta : ℤ} (h : -2 ^ 20 ≤ delta ∧ delta < 2 ^ 20) :
    ∃ w, Field.adr21.encode (adr rd) delta = .ok w ∧ w < 2 ^ 32 ∧
      decode w = some (.adr rd delta) := by
  have hfits : fitsSigned delta 21 ≠ false := by
    rw [Bool.ne_false_iff, fitsSigned, if_neg (by decide), decide_eq_true_iff]
    exact h
  refine ⟨_, by rw [Field.encode, if_neg hfits], ?_, ?_⟩
  · rw [adr_eq, insertAdr_eq 0 _ _ (by decide) (Nat.mod_lt _ (by decide))]
    omega
  · rw [adr_eq, insertAdr_eq 0 _ _ (by decide) (Nat.mod_lt _ (by decide)),
      Nat.mod_eq_of_lt (by omega : rd < 2 ^ 5), Nat.zero_mul, Nat.add_zero]
    have hdecode := decode_adr rd (delta % 4).toNat (delta / 4 % 2 ^ 19).toNat hrd (by omega)
      (by omega)
    rw [hdecode, signExtend_split h]

theorem encode_add (target : ℕ) (hrd : rd < 32) :
    ∃ w, Field.add12.encode (addImm rd rd) (asI64 target) = .ok w ∧ w < 2 ^ 32 ∧
      decode w = some (.addImm rd rd (target % 2 ^ 12)) := by
  have hvalue : (asU32 (asI64 target) &&& 0xfff) % 2 ^ 12 = target % 2 ^ 12 := by
    rw [show 0xfff = 2 ^ 12 - 1 from rfl, Nat.and_two_pow_sub_one_eq_mod, Nat.mod_mod,
      asU32_mod (by decide), asI64]
    omega
  have hinsert := insert_eq (rd % 2 ^ 5 + rd % 2 ^ 5 * 2 ^ 5) 0 0x244 10 12
    (asU32 (asI64 target) &&& 0xfff) (by omega) (by decide) (by decide) (by decide) (by decide)
    (by decide)
  rw [hvalue, Nat.mod_eq_of_lt (by omega : rd < 2 ^ 5)] at hinsert
  have hdecode := decode_addImm rd rd 0 hrd hrd (Nat.mod_lt target (by decide : 0 < 2 ^ 12))
    (by decide)
  rw [Nat.mul_zero, Nat.pow_zero, Nat.mul_one] at hdecode
  refine ⟨_, rfl, ?_, ?_⟩
  · rw [addImm_eq, Nat.mod_eq_of_lt (by omega : rd < 2 ^ 5), hinsert]
    omega
  · rw [addImm_eq, Nat.mod_eq_of_lt (by omega : rd < 2 ^ 5), hinsert, ← hdecode]
    congr 1
    omega

theorem exists_encode_adrp (hrd : rd < 32)
    (hfits : fitsSigned (pagesBetween place target) 33 = true) :
    ∃ w, Field.adrp21.encode (adrp rd) (pagesBetween place target) = .ok w ∧ w < 2 ^ 32 ∧
      decode w = some (.adrp rd (pagesBetween place target)) := by
  have hencode : Field.adrp21.encode (adrp rd) (pagesBetween place target) =
      .ok (insertAdr (adrp rd) (pagesBetween place target >>> (12 : ℕ))) := by
    rw [Field.encode, if_neg (not_not.mpr (pagesBetween_aligned place target)),
      if_neg (by rw [hfits]; decide)]
  exact ⟨_, hencode, encode_adrp hrd hencode⟩

/-! ### Stores -/

/-- Two words were stored at `at_`, and nothing else changed. -/
structure Rewrites (out : List UInt8) (at_ v₀ v₁ : ℕ) (out' : List UInt8) : Prop where
  length_eq : out'.length = out.length
  first : readInsn out' at_ = some v₀
  second : readInsn out' (at_ + 4) = some v₁
  others : ∀ k, k < at_ ∨ at_ + 8 ≤ k → out'[k]? = out[k]?

theorem Rewrites.trans {mid : List UInt8} {u₀ u₁ : ℕ} (h : Rewrites out at_ u₀ u₁ mid)
    (h' : Rewrites mid at_ v₀ v₁ out') :
    Rewrites out at_ v₀ v₁ out' :=
  ⟨h'.length_eq.trans h.length_eq, h'.first, h'.second,
    fun k hk => (h'.others k hk).trans (h.others k hk)⟩

theorem getElem?_put {k : ℕ} (h : put out at_ value = .ok out') (hk : k < at_ ∨ at_ + 4 ≤ k) :
    out'[k]? = out[k]? := by
  obtain ⟨hfits, rfl⟩ := put_eq_ok.mp h
  rw [getElem?_overwrite (by rw [length_leBytes]; exact hfits), length_leBytes, if_neg (by omega)]

theorem get_eq_ok :
    get out at_ = .ok word ↔ readInsn out at_ = some word :=
  okOrElse_eq_ok

theorem putTwo_eq {mid : List UInt8} {second : ℕ} (h₀ : put out first v₀ = .ok mid)
    (h₁ : put mid second v₁ = .ok out') :
    putTwo out first v₀ second v₁ = (out', true) := by
  simp only [putTwo, h₀, h₁]

theorem exists_put_put (hfits : at_ + 8 ≤ out.length) (h₀ : v₀ < 2 ^ 32) (h₁ : v₁ < 2 ^ 32) :
    ∃ mid out', put out at_ v₀ = .ok mid ∧ put mid (at_ + 4) v₁ = .ok out' ∧
      Rewrites out at_ v₀ v₁ out' := by
  obtain ⟨mid, hmid⟩ := exists_put out v₀ (by omega : at_ + 4 ≤ out.length)
  obtain ⟨hlen, hfirst, -⟩ := put_spec hmid h₀
  obtain ⟨out', hout⟩ := exists_put mid v₁ (by omega : at_ + 4 + 4 ≤ mid.length)
  obtain ⟨hlen', hsecond, hother⟩ := put_spec hout h₁
  refine ⟨mid, out', hmid, hout, hlen'.trans hlen, ?_, hsecond, fun k hk => ?_⟩
  · rw [hother at_ (by omega), hfirst]
  · rw [getElem?_put hout (by omega), getElem?_put hmid (by omega)]

theorem nop_lt : NOP < 2 ^ 32 := by
  rw [NOP]
  omega

/-- **A pair that computes a near address becomes one `adr`.** -/
theorem relaxAdrpAdd_spec {offset : ℕ} (place target : ℕ) (hfits : offset + 8 ≤ out.length)
    (hoffset : offset + 4 < 2 ^ 64) (hfirst : readInsn out offset = some first)
    (hreach : InReach place target) :
    ∃ v₁, (relaxAdrpAdd out offset place target).2 = true ∧
      Rewrites out offset NOP v₁ (relaxAdrpAdd out offset place target).1 ∧
      decode v₁ = some (.adr (destinationRegister first) (adrDelta place target)) := by
  obtain ⟨v₁, hencode, hlt, hdecode⟩ := encode_adr (destinationRegister_lt first)
    (inReach_iff.mp hreach)
  obtain ⟨mid, out', hmid, hout, hrewrites⟩ := exists_put_put hfits nop_lt hlt
  have hrun : relaxAdrpAdd out offset place target = (out', true) := by
    rw [relaxAdrpAdd, checkedAdd, if_pos hoffset, Option.elim_some, if_neg (not_not.mpr hreach),
      get_eq_ok.mpr hfirst, toOption_ok, Option.elim_some, hencode, toOption_ok,
      Option.elim_some, putTwo_eq hmid hout]
  rw [hrun]
  exact ⟨v₁, rfl, hrewrites, hdecode⟩

theorem relaxAdrpAdd_of_far (out : List UInt8) (offset : ℕ) (h : ¬InReach place target) :
    relaxAdrpAdd out offset place target = (out, false) := by
  rw [relaxAdrpAdd]
  cases checkedAdd offset 4 with
  | none => rfl
  | some addOffset => rw [Option.elim_some, if_pos h]

/-- **A pair that loads a GOT entry becomes one that computes the address.**  The second
word is no longer a load or a store. -/
theorem rewritePair_spec {base : ℕ} {rel : Relocation} (htarget : target < 2 ^ 64)
    (hfits : rel.offset + 8 ≤ out.length) (hoffset : rel.offset + 4 < 2 ^ 64)
    (hfirst : readInsn out rel.offset = some first)
    (hpages : fitsSigned (pagesBetween (wrappingAdd base rel.offset) target) 33 = true) :
    ∃ v₀ v₁, Rewrites out rel.offset v₀ v₁ (rewritePair base out rel target) ∧
      isLoadStoreUnsigned v₁ = false ∧
      (destinationRegister first ≠ 31 →
        Leaves v₀ v₁ (wrappingAdd base rel.offset) (destinationRegister first) target) := by
  have hregister := destinationRegister_lt first
  obtain ⟨u₀, hencode₀, hlt₀, hdecode₀⟩ := exists_encode_adrp hregister hpages
  obtain ⟨u₁, hencode₁, hlt₁, hdecode₁⟩ := encode_add target hregister
  obtain ⟨mid₀, mid, hmid₀, hmid, hrewrites⟩ := exists_put_put hfits hlt₀ hlt₁
  have hrun : rewritePair base out rel target =
      (relaxAdrpAdd mid rel.offset (wrappingAdd base rel.offset) target).1 := by
    have hpatch₀ := patch_eq_ok.mpr ⟨u₀, hencode₀, hmid₀⟩
    have hpatch₁ := patch_eq_ok.mpr ⟨u₁, hencode₁, hmid⟩
    rw [rewritePair, get_eq_ok.mpr hfirst, toOption_ok, Option.elim_some]
    simp only
    rw [hpatch₀, toOption_ok, Option.elim_some, wrappingAdd_of_lt hoffset, hpatch₁, toOption_ok,
      Option.elim_some]
  have hdestination : destinationRegister u₀ = destinationRegister first :=
    ((class_of_decode hdecode₀).1 _ _ rfl).2
  rw [hrun]
  by_cases hreach : InReach (wrappingAdd base rel.offset) target
  · obtain ⟨v₁, -, hrewrites', hdecode⟩ := relaxAdrpAdd_spec _ _
      (hrewrites.length_eq.symm ▸ hfits) hoffset hrewrites.first hreach
    rw [hdestination] at hdecode
    refine ⟨NOP, v₁, hrewrites.trans hrewrites', ?_, fun _ => ?_⟩
    · exact ((class_of_decode hdecode).2.2.2 _ _ rfl).2
    · exact leaves_nop_adr hdecode (add_adrDelta _ htarget)
  · rw [relaxAdrpAdd_of_far _ _ hreach]
    refine ⟨u₀, u₁, hrewrites, ?_, fun hn => ?_⟩
    · have hclass := (class_of_decode hdecode₁).2.2.1 _ _ _ rfl
      rw [Bool.eq_false_iff, Ne, isLoadStoreUnsigned_iff]
      have htop := hclass.1
      simp only [bits] at htop ⊢
      omega
    · exact leaves_adrp_add hn hdecode₀ hdecode₁ (add_pagesBetween _ htarget)

end Qld.Elf.Arch
