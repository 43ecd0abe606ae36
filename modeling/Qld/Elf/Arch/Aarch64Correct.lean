import Mathlib.Data.Int.ModEq
import Qld.Elf.Arch.Aarch64

/-!
# A relaxed TLS sequence computes the address it stands for

* `Sequence`, `Sequence.Holds` — the sequences of the ABI, and code that holds one;
* `relaxSequence` — every relocation of a sequence, in order;
* `prescribed`, `Preserves` — what the relaxed code must leave in its register;
* `relaxSequence_preserves_iff` — it does, except for a general-dynamic access without
  the trailing `nop` whose offset needs more than twelve bits: the first `add` of
  `mrs; add hi12; add lo12` is encoded without its shift.
-/

namespace Qld.Elf.Arch

open Qld.Lib Qld.Lib.A64 Qld.Arch.Aarch64

/-! ### Sequences -/

/-- The instruction sequences of the ABI.  `gdNop` is `gd` with the trailing `nop`. -/
inductive Sequence where
  | gd
  | gdNop
  | ld
  | ie (register : ℕ)
  | desc
  deriving DecidableEq, Repr

namespace Sequence

/-- How many instructions are rewritten. -/
def count : Sequence → ℕ
  | gd | ld => 3
  | gdNop | desc => 4
  | ie _ => 2

/-- Where the result is expected. -/
def destination : Sequence → ℕ
  | ie register => register
  | _ => 0

/-- The relocations of a sequence, by their distance from its start. -/
def relocations : Sequence → List (ℕ × ℕ)
  | gd | gdNop => [(0, R_AARCH64_TLSGD_ADR_PAGE21), (4, R_AARCH64_TLSGD_ADD_LO12_NC)]
  | ld => [(0, R_AARCH64_TLSLD_ADR_PAGE21), (4, R_AARCH64_TLSLD_ADD_LO12_NC)]
  | ie _ =>
    [(0, R_AARCH64_TLSIE_ADR_GOTTPREL_PAGE21), (4, R_AARCH64_TLSIE_LD64_GOTTPREL_LO12_NC)]
  | desc =>
    [(0, R_AARCH64_TLSDESC_ADR_PAGE21), (4, R_AARCH64_TLSDESC_LD64_LO12),
      (8, R_AARCH64_TLSDESC_ADD_LO12), (12, R_AARCH64_TLSDESC_CALL)]

/-- `bl`, to wherever. -/
def IsCall (word : ℕ) : Prop := bits word 26 6 = 0x25

/-- The words of a sequence, with any immediates. -/
def Words : Sequence → List ℕ → Prop
  | gd, [a, b, c] | ld, [a, b, c] =>
    (∃ page, decode a = some (.adrp 0 page)) ∧ (∃ imm, decode b = some (.addImm 0 0 imm)) ∧ IsCall c
  | gdNop, [a, b, c, d] =>
    (∃ page, decode a = some (.adrp 0 page)) ∧ (∃ imm, decode b = some (.addImm 0 0 imm)) ∧
      IsCall c ∧ d = NOP
  | ie n, [a, b] =>
    n < 31 ∧ (∃ page, decode a = some (.adrp n page)) ∧ ∃ imm, decode b = some (.ldr n n imm)
  -- `blr x1`
  | desc, [a, b, c, d] =>
    (∃ page, decode a = some (.adrp 0 page)) ∧ (∃ imm, decode b = some (.ldr 1 0 imm)) ∧
      (∃ imm, decode c = some (.addImm 0 0 imm)) ∧ d = 0xd63f0020
  | _, _ => False

/-- The code holds the sequence at `offset`; a slice has at most `isize::MAX` bytes. -/
structure Holds (seq : Sequence) (out : List UInt8) (offset : ℕ) : Prop where
  length_lt : out.length < 2 ^ 63
  words : ∃ words, fetch out offset seq.count = some words ∧ seq.Words words
  tail : seq = gd → readInsn out (offset + 12) ≠ some NOP

end Sequence

/-- The values for the relocation `delta` bytes into a sequence. -/
def RelaxValues.at (values : RelaxValues) (delta : ℕ) : RelaxValues :=
  { values with
    place := wrappingAdd values.place delta
    place_lt := Nat.mod_lt _ (by decide) }

/-- Every relocation of a sequence, in order.  The call of a descriptor is classified apart. -/
def relaxSequence (seq : Sequence) (kind call : Kind) (values : RelaxValues) (out : List UInt8)
    (offset : ℕ) : Except ApplyError (List UInt8) :=
  seq.relocations.foldlM (fun out r =>
    relaxTls out (wrappingAdd offset r.1) (if r.2 = R_AARCH64_TLSDESC_CALL then call else kind) r.2
      (values.at r.1)) out

/-- What the ABI prescribes for the result. -/
def prescribed (kind : Kind) (values : RelaxValues) (cpu : Cpu) : ℕ :=
  match kind with
  | .gdToLe | .ldToLe => asU64 (cpu.tpidr + values.tpoff)
  | .gdToIe => (cpu.tpidr + cpu.load values.got) % 2 ^ 64
  | .ieToLe | .descToLe => asU64 values.tpoff
  | .descToIe => cpu.load values.got
  | _ => 0

/-- When the relaxation succeeds, the code it leaves computes what the ABI prescribes. -/
def Preserves (seq : Sequence) (kind call : Kind) (values : RelaxValues) (out : List UInt8)
    (offset : ℕ) : Prop :=
  ∀ out', relaxSequence seq kind call values out offset = .ok out' →
    ∀ cpu : Cpu, cpu.pc = values.place → ∃ words cpu', fetch out' offset seq.count = some words ∧
      run words cpu = some cpu' ∧ cpu'.x seq.destination = prescribed kind values cpu

/-! ### Stores -/

variable {out out' : List UInt8} {at_ t rd encoded w₁ n offset word rType : ℕ}

theorem put_eq_ok {value : ℕ} :
    put out at_ value = .ok out' ↔
      at_ + 4 ≤ out.length ∧ out' = overwrite out at_ (leBytes 4 value) := by
  rw [put, okOrElse_eq_ok, writeInsn, Option.ite_none_right_eq_some, Option.some.injEq, eq_comm (a := out')]

variable {value : ℤ}

theorem patch_eq_ok {insn : ℕ} {field : Field} :
    patch out at_ insn field value = .ok out' ↔
      ∃ encoded, field.encode insn value = .ok encoded ∧ put out at_ encoded = .ok out' := by
  rw [patch]
  cases field.encode insn value with
  | error e => exact ⟨fun h => (nomatch h), fun ⟨_, h, _⟩ => (nomatch h)⟩
  | ok encoded => exact ⟨fun h => ⟨_, rfl, h⟩, fun ⟨_, h, hput⟩ => Except.ok.inj h ▸ hput⟩

/-- **What a store changes.** -/
theorem put_spec {value : ℕ} (h : put out at_ value = .ok out') (hvalue : value < 2 ^ 32) :
    out'.length = out.length ∧ readInsn out' at_ = some value ∧
      ∀ other, at_ + 4 ≤ other ∨ other + 4 ≤ at_ → readInsn out' other = readInsn out other := by
  obtain ⟨hfits, rfl⟩ := put_eq_ok.mp h
  refine ⟨length_overwrite ?_, readInsn_overwrite hfits hvalue,
    fun other => readInsn_overwrite_of_apart value hfits⟩
  rw [length_leBytes]
  exact hfits

/-! ### Values -/

theorem fitsUnsigned_iff {width : ℕ} (hwidth : width < 63) :
    fitsUnsigned value width = true ↔ 0 ≤ value ∧ value < 2 ^ width := by
  have hpow : (2 : ℤ) ^ width < 2 ^ 63 := by
    exact_mod_cast Nat.pow_lt_pow_right (by decide : 1 < 2) hwidth
  have hpos : (0 : ℤ) < 2 ^ width := Int.pow_pos (by decide)
  rw [fitsUnsigned, if_neg (by omega), asI64, decide_eq_true_iff]
  have hwrap : ((2 : ℤ) ^ width + 2 ^ 63) % 2 ^ 64 - 2 ^ 63 = 2 ^ width := by omega
  rw [hwrap]

theorem hi16_natCast (ht : t < 2 ^ 32) : hi16 t = t / 2 ^ 16 := by
  rw [hi16, asU64, Nat.shiftRight_eq_div_pow, show 0xffff = 2 ^ 16 - 1 from rfl,
    Nat.and_two_pow_sub_one_eq_mod]
  omega

theorem lo16_natCast (t : ℕ) : lo16 t = t % 2 ^ 16 := by
  rw [lo16, asU64, show 0xffff = 2 ^ 16 - 1 from rfl, Nat.and_two_pow_sub_one_eq_mod]
  omega

theorem movz_spec (hrd : rd < 32) (ht : t < 2 ^ 32) :
    movz rd (hi16 t) 16 < 2 ^ 32 ∧ decode (movz rd (hi16 t) 16) = some (.movz rd (t / 2 ^ 16) 16) := by
  have hdecode := decode_movz 1 hrd (by omega : t / 2 ^ 16 < 2 ^ 16) (by decide)
  rw [movz_eq, hi16_natCast ht, Nat.mod_eq_of_lt (by omega : rd < 2 ^ 5),
    Nat.mod_eq_of_lt (by omega : t / 2 ^ 16 < 2 ^ 16)]
  exact ⟨by omega, hdecode⟩

theorem movk_spec (t : ℕ) (hrd : rd < 32) :
    movk rd (lo16 t) 0 < 2 ^ 32 ∧ decode (movk rd (lo16 t) 0) = some (.movk rd (t % 2 ^ 16) 0) := by
  have hdecode := decode_movk 0 hrd (by omega : t % 2 ^ 16 < 2 ^ 16) (by decide)
  rw [movk_eq, lo16_natCast, Nat.mod_eq_of_lt (by omega : rd < 2 ^ 5), Nat.mod_mod]
  exact ⟨by omega, hdecode⟩

theorem addImm_spec (value : ℕ) :
    insert (addImm 0 0) value 10 12 < 2 ^ 32 ∧
      decode (insert (addImm 0 0) value 10 12) = some (.addImm 0 0 (value % 2 ^ 12)) := by
  have hinsert := insert_imm12 0x244 value (by decide)
  have hdecode := decode_addImm 0 0 0 (by decide) (by decide)
    (Nat.mod_lt value (by decide : 0 < 2 ^ 12)) (by decide)
  rw [Nat.mul_zero, Nat.pow_zero, Nat.mul_one] at hdecode
  rw [show addImm 0 0 = 0x244 * 2 ^ 22 from rfl, hinsert, ← hdecode]
  refine ⟨by omega, congrArg decode ?_⟩
  omega

theorem ldrOffset_spec {got : ℕ} (hgot : got < 2 ^ 64)
    (h : (Field.ldSt 3 false).encode (ldrOffset 0 0) (asI64 got) = .ok encoded) :
    encoded < 2 ^ 32 ∧ decode encoded = some (.ldr 0 0 (got % 2 ^ 12)) := by
  have hwrap : asI64 got % 2 ^ 64 = got := by rw [asI64]; omega
  have hvalue : (asU64 (asI64 got) &&& 0xfff) >>> 3 = got % 2 ^ 12 / 2 ^ 3 := by
    rw [asU64, hwrap, Int.toNat_natCast, Nat.shiftRight_eq_div_pow,
      show 0xfff = 2 ^ 12 - 1 from rfl, Nat.and_two_pow_sub_one_eq_mod]
  simp only [Field.encode, show min 3 4 = 3 from rfl] at h
  split at h
  · cases h
  · next haligned =>
    have hmod : got % 8 = 0 := by
      rw [asI64] at haligned
      omega
    obtain rfl := Except.ok.inj h
    have hdecode := decode_ldr 0 0 (by decide) (by decide) (by omega : got % 2 ^ 12 / 2 ^ 3 < 2 ^ 12)
    have hinsert := insert_imm12 0x3e5 (got % 2 ^ 12 / 2 ^ 3) (by decide)
    rw [show ldrOffset 0 0 = 0x3e5 * 2 ^ 22 from rfl, hvalue, hinsert,
      show got % 2 ^ 12 = 8 * (got % 2 ^ 12 / 2 ^ 3) by omega, ← hdecode]
    refine ⟨by omega, congrArg decode ?_⟩
    omega

theorem signExtend_split {pages : ℤ} (h : -2 ^ 20 ≤ pages ∧ pages < 2 ^ 20) :
    signExtend 21 ((pages % 4).toNat + 4 * (pages / 4 % 2 ^ 19).toNat) = pages := by
  rw [signExtend]
  split <;> omega

theorem asI64_modEq (value : ℤ) : asI64 value ≡ value [ZMOD 2 ^ 64] := by
  rw [asI64, Int.ModEq]
  omega

/-- From the page of the place to the page of the entry, around the end of the address space. -/
theorem add_pageDelta (values : RelaxValues) :
    ((values.place / 4096 * 4096 : ℕ) + pageDelta values values.got) % 2 ^ 64 =
      page values.got := by
  have hpage : (page values.got : ℤ) % 2 ^ 64 = page values.got :=
    Int.emod_eq_of_lt (Int.natCast_nonneg _) (by have := values.got_lt; rw [page]; omega)
  have hdelta := (asI64_modEq (asI64 (page values.got) - asI64 (page values.place))).trans
    ((asI64_modEq (page values.got)).sub (asI64_modEq (page values.place)))
  have hsum := (Int.ModEq.refl (page values.place : ℤ)).add hdelta
  rw [add_sub_cancel] at hsum
  exact Eq.trans hsum hpage

/-- An `adrp` with the distance of a page that it reaches. -/
theorem encode_adrp (hrd : rd < 32) {delta : ℤ}
    (h : Field.adrp21.encode (adrp rd) delta = .ok encoded) :
    encoded < 2 ^ 32 ∧ decode encoded = some (.adrp rd delta) := by
  rw [Field.encode] at h
  split at h
  · exact nomatch h
  split at h
  · exact nomatch h
  next haligned hfits =>
    obtain rfl := Except.ok.inj h
    rw [Bool.not_eq_false, fitsSigned, if_neg (by decide), decide_eq_true_iff] at hfits
    rw [adrp_eq, insertAdr_eq 1 _ _ (by decide) (Nat.mod_lt _ (by decide)),
      Int.shiftRight_eq_div_pow, Nat.mod_eq_of_lt (by omega : rd < 2 ^ 5)]
    have hdecode := decode_adrp rd (delta / 2 ^ 12 % 4).toNat (delta / 2 ^ 12 / 4 % 2 ^ 19).toNat
      hrd (by omega) (by omega)
    rw [signExtend_split (by omega), show delta / 2 ^ 12 * 4096 = delta by omega] at hdecode
    exact ⟨by omega, hdecode⟩

variable {values : RelaxValues}

/-- The `adrp` that reaches the page of the GOT entry. -/
theorem adrp_spec (h : Field.adrp21.encode (adrp 0) (pageDelta values values.got) = .ok encoded) :
    encoded < 2 ^ 32 ∧ ∃ offset, decode encoded = some (.adrp 0 offset) ∧
      ((values.place / 4096 * 4096 : ℕ) + offset) % 2 ^ 64 = page values.got := by
  obtain ⟨hlt, hdecode⟩ := encode_adrp (by decide) h
  exact ⟨hlt, _, hdecode, add_pageDelta values⟩

/-! ### Relaxed code -/

theorem run_movz_movk {w₀ : ℕ} (hn : n < 31) (h₀ : decode w₀ = some (.movz n (t / 2 ^ 16) 16))
    (h₁ : decode w₁ = some (.movk n (t % 2 ^ 16) 0)) (words : List ℕ) (cpu : Cpu) :
    ∃ cpu' : Cpu, run (w₀ :: w₁ :: words) cpu = run words cpu' ∧ cpu'.x n = t ∧
      cpu'.tpidr = cpu.tpidr := by
  rw [run_cons h₀, run_cons h₁]
  refine ⟨_, rfl, ?_, ?_⟩
  · simp only [step, Cpu.next_x]
    rw [Cpu.set_x_self _ _ (by omega), Cpu.reg_of_ne _ (by omega), Cpu.next_x,
      Cpu.set_x_self _ _ (by omega), keep]
    omega
  · simp only [step, Cpu.next_tpidr, Cpu.set_tpidr]

theorem run_adrp_ldr {w₀ : ℕ} {offset : ℤ} (h₀ : decode w₀ = some (.adrp 0 offset))
    (hoffset : ((values.place / 4096 * 4096 : ℕ) + offset) % 2 ^ 64 = page values.got)
    (h₁ : decode w₁ = some (.ldr 0 0 (values.got % 2 ^ 12))) (words : List ℕ) {cpu : Cpu}
    (hpc : cpu.pc = values.place) :
    ∃ cpu' : Cpu, run (w₀ :: w₁ :: words) cpu = run words cpu' ∧
      cpu'.x 0 = cpu.load values.got ∧ cpu'.tpidr = cpu.tpidr := by
  have hgot := values.got_lt
  have haddress : (page values.got + values.got % 2 ^ 12) % 2 ^ 64 = values.got := by
    rw [page]; omega
  rw [run_cons h₀, run_cons h₁]
  refine ⟨_, rfl, ?_, ?_⟩
  · simp only [step, Cpu.next_x, Cpu.next_load, Cpu.set_load]
    rw [Cpu.set_x_self _ _ (by decide), Cpu.regSp_of_ne _ (by decide), Cpu.next_x,
      Cpu.set_x_self _ _ (by decide), hpc, hoffset, Int.toNat_natCast, haddress]
  · simp only [step, Cpu.next_tpidr, Cpu.set_tpidr]

/-- `mrs x1, tpidr_el0; add x0, x1, x0` adds the thread pointer. -/
theorem run_add_tp (cpu : Cpu) :
    ∃ cpu', run [MRS_TPIDR_X0 ||| 1, ADD_X0_X1_X0] cpu = some cpu' ∧
      cpu'.x 0 = (cpu.tpidr + cpu.x 0) % 2 ^ 64 := by
  have hmrs : decode (MRS_TPIDR_X0 ||| 1) = some (.mrsTpidr 1) := by decide
  have hadd : decode ADD_X0_X1_X0 = some (.addReg 0 1 0) := by decide
  rw [run_cons hmrs, run_cons hadd, run]
  refine ⟨_, rfl, ?_⟩
  simp only [step, Cpu.next_x]
  rw [Cpu.set_x_self _ _ (by decide), Cpu.reg_of_ne _ (by decide), Cpu.reg_of_ne _ (by decide),
    Cpu.next_x, Cpu.set_x_self _ _ (by decide), Cpu.set_x_of_ne _ _ (by decide)]

theorem decode_nop : decode NOP = some .nop := by decide

/-- `mrs x0, tpidr_el0; add x0, x0, #imm` adds an immediate to the thread pointer. -/
theorem run_mrs_add {imm : ℕ} (h₁ : decode w₁ = some (.addImm 0 0 imm)) (words : List ℕ) (cpu : Cpu)
    :
    ∃ cpu' : Cpu, run (MRS_TPIDR_X0 :: w₁ :: words) cpu = run words cpu' ∧
      cpu'.x 0 = (cpu.tpidr + imm) % 2 ^ 64 := by
  have hmrs : decode MRS_TPIDR_X0 = some (.mrsTpidr 0) := by decide
  rw [run_cons hmrs, run_cons h₁]
  refine ⟨_, rfl, ?_⟩
  simp only [step, Cpu.next_x]
  rw [Cpu.setSp_x_self _ _ (by decide), Cpu.regSp_of_ne _ (by decide), Cpu.next_x,
    Cpu.set_x_self _ _ (by decide)]

/-! ### The code before -/

theorem fetch_succ_eq_some {code : List UInt8} {count : ℕ} {words : List ℕ}
    (h : fetch code offset (count + 1) = some words) :
    ∃ word rest, words = word :: rest ∧ readInsn code offset = some word ∧
      fetch code (offset + 4) count = some rest := by
  obtain ⟨word, hword, h⟩ := Option.bind_eq_some_iff.mp h
  obtain ⟨rest, hrest, h⟩ := Option.map_eq_some_iff.mp h
  exact ⟨word, rest, h.symm, hword, hrest⟩

theorem add_le_of_readInsn (h : readInsn out at_ = some word) :
    at_ + 4 ≤ out.length :=
  (Option.ite_none_right_eq_some.mp h).1

theorem add_le_of_fetch {out : List UInt8} {offset count : ℕ} {words : List ℕ}
    (h : fetch out offset (count + 1) = some words) : offset + 4 * (count + 1) ≤ out.length := by
  induction count generalizing offset words with
  | zero =>
    obtain ⟨word, rest, -, hword, -⟩ := fetch_succ_eq_some h
    exact add_le_of_readInsn hword
  | succ count ih =>
    obtain ⟨word, rest, -, -, hrest⟩ := fetch_succ_eq_some h
    have := ih hrest
    omega

variable {seq : Sequence}

theorem Sequence.Holds.bounds (h : seq.Holds out offset) (count : ℕ) (hcount : seq.count = count) :
    offset + 4 * count ≤ out.length ∧ out.length < 2 ^ 63 := by
  obtain ⟨words, hfetch, -⟩ := h.words
  refine ⟨?_, h.length_lt⟩
  subst hcount
  cases seq <;> exact add_le_of_fetch hfetch

theorem and_call_iff (word : ℕ) : word &&& 0xfc000000 = 0x94000000 ↔ Sequence.IsCall word := by
  rw [show 0xfc000000 = (2 ^ 6 - 1) <<< 26 from rfl, land_mask, Sequence.IsCall, bits]
  omega

theorem gdTailIsCallNop_iff (hat : at_ + 8 < 2 ^ 64) :
    gdTailIsCallNop out at_ = true ↔
      (∃ c, readInsn out (at_ + 4) = some c ∧ Sequence.IsCall c) ∧
        readInsn out (at_ + 8) = some NOP := by
  rw [gdTailIsCallNop, checkedAdd, if_pos (by omega), checkedAdd, if_pos hat, Option.bind_some,
    Option.bind_some, Bool.and_eq_true, beq_iff_eq, Option.any_eq_true]
  refine and_congr_left fun _ => exists_congr fun c => and_congr_right fun _ => ?_
  rw [beq_iff_eq]
  exact and_call_iff c

theorem gdTailIsCallNop_of_gd (h : Sequence.gd.Holds out offset) :
    gdTailIsCallNop out (offset + 4) = false := by
  obtain ⟨hle, hlen⟩ := h.bounds 3 rfl
  rw [← Bool.not_eq_true, gdTailIsCallNop_iff (by omega)]
  exact fun hnop => h.tail rfl hnop.2

theorem gdTailIsCallNop_of_gdNop (h : Sequence.gdNop.Holds out offset) :
    gdTailIsCallNop out (offset + 4) = true := by
  obtain ⟨hle, hlen⟩ := h.bounds 4 rfl
  obtain ⟨words, hfetch, hwords⟩ := h.words
  rw [Sequence.count] at hfetch
  rw [gdTailIsCallNop_iff (by omega)]
  obtain ⟨a, _, rfl, ha, hfetch⟩ := fetch_succ_eq_some hfetch
  obtain ⟨b, _, rfl, hb, hfetch⟩ := fetch_succ_eq_some hfetch
  obtain ⟨c, _, rfl, hc, hfetch⟩ := fetch_succ_eq_some hfetch
  obtain ⟨d, _, rfl, hd, hfetch⟩ := fetch_succ_eq_some hfetch
  obtain rfl := Option.some.inj hfetch
  obtain ⟨-, -, hcall, rfl⟩ := hwords
  exact ⟨⟨c, hc, hcall⟩, hd⟩

theorem gdTailIsCallNop_congr (hat : at_ + 8 < 2 ^ 64)
    (hcall : readInsn out' (at_ + 4) = readInsn out (at_ + 4))
    (hnop : readInsn out' (at_ + 8) = readInsn out (at_ + 8)) :
    gdTailIsCallNop out' at_ = gdTailIsCallNop out at_ := by
  rw [Bool.eq_iff_iff, gdTailIsCallNop_iff hat, gdTailIsCallNop_iff hat, hcall, hnop]

/-! ### One relocation after the other -/

theorem RelaxValues.at_tpoff (values : RelaxValues) (delta : ℕ) :
    (values.at delta).tpoff = values.tpoff := rfl

theorem RelaxValues.at_got (values : RelaxValues) (delta : ℕ) :
    (values.at delta).got = values.got := rfl

theorem RelaxValues.at_zero (values : RelaxValues) : values.at 0 = values := by
  have h : wrappingAdd values.place 0 = values.place := wrappingAdd_of_lt values.place_lt
  cases values
  simp only [RelaxValues.at, h]

variable {kind : Kind}

/-- The relocations of a sequence other than a descriptor. -/
theorem relaxSequence_two {call : Kind} {r₀ r₁ : ℕ} (hseq : seq.relocations = [(0, r₀), (4, r₁)])
    (h₀ : r₀ ≠ R_AARCH64_TLSDESC_CALL) (h₁ : r₁ ≠ R_AARCH64_TLSDESC_CALL)
    (hoffset : offset + 4 < 2 ^ 64) :
    relaxSequence seq kind call values out offset = .ok out' ↔
      ∃ mid, relaxTls out offset kind r₀ values = .ok mid ∧
        relaxTls mid (offset + 4) kind r₁ (values.at 4) = .ok out' := by
  rw [relaxSequence, hseq, List.foldlM_cons, bind_eq_ok]
  simp only [List.foldlM_cons, List.foldlM_nil, bind_pure, if_neg h₀, if_neg h₁]
  rw [values.at_zero, wrappingAdd_of_lt (by omega : offset + 0 < 2 ^ 64), wrappingAdd_of_lt hoffset,
    Nat.add_zero]

theorem exists_natCast_of_fits {width : ℕ} (hwidth : width < 63)
    (h : ¬fitsUnsigned value width = false) : ∃ t : ℕ, value = t ∧ t < 2 ^ width := by
  rw [Bool.not_eq_false, fitsUnsigned_iff hwidth] at h
  obtain ⟨t, rfl⟩ := Int.eq_ofNat_of_zero_le h.1
  exact ⟨t, rfl, by exact_mod_cast h.2⟩

/-- The last three instructions of a general-dynamic access with its `nop`. -/
theorem put_tail {mid first : List UInt8} (hat : at_ + 8 < 2 ^ 64)
    (hfirst : put mid at_ word = .ok first) (hword : word < 2 ^ 32) (h : (do
      let out ← put first (wrappingAdd at_ 4) (MRS_TPIDR_X0 ||| 1)
      put out (wrappingAdd at_ 8) ADD_X0_X1_X0) = .ok out') :
    fetch out' at_ 3 = some [word, MRS_TPIDR_X0 ||| 1, ADD_X0_X1_X0] ∧
      ∀ other, other + 4 ≤ at_ → readInsn out' other = readInsn mid other := by
  obtain ⟨second, hsecond, hthird⟩ := bind_eq_ok.mp h
  rw [wrappingAdd_of_lt (by omega)] at hsecond
  rw [wrappingAdd_of_lt hat] at hthird
  obtain ⟨-, hread₀, hkeep₀⟩ := put_spec hfirst hword
  obtain ⟨-, hread₁, hkeep₁⟩ := put_spec hsecond (by decide)
  obtain ⟨-, hread₂, hkeep₂⟩ := put_spec hthird (by decide)
  refine ⟨fetch_succ ?_ (fetch_succ ?_ (fetch_succ hread₂ rfl)), fun other hother => ?_⟩
  · exact (hkeep₂ _ (by omega)).trans ((hkeep₁ _ (by omega)).trans hread₀)
  · exact (hkeep₂ _ (by omega)).trans hread₁
  · rw [hkeep₂ _ (by omega), hkeep₁ _ (by omega), hkeep₀ _ (by omega)]

/-! ### General-dynamic accesses -/

variable {values : RelaxValues} {out : List UInt8} {offset : ℕ} {call : Kind}

theorem preserves_gdNop_le (h : Sequence.gdNop.Holds out offset) :
    Preserves .gdNop .gdToLe call values out offset := by
  intro out' hok cpu _
  obtain ⟨hle, hlen⟩ := h.bounds 4 rfl
  have htail := gdTailIsCallNop_of_gdNop h
  obtain ⟨mid, hfirst, hsecond⟩ :=
    (relaxSequence_two rfl (by decide) (by decide) (by omega)).mp hok
  rw [relaxTls, if_pos rfl, wrappingAdd_of_lt (by omega), htail, if_pos rfl] at hfirst
  split at hfirst
  · exact nomatch hfirst
  next hfits =>
  obtain ⟨t, htpoff, ht⟩ := exists_natCast_of_fits (by decide) hfits
  rw [htpoff] at hfirst
  obtain ⟨hmovz, hmovz'⟩ := movz_spec (by decide : 0 < 32) ht
  obtain ⟨hmovk, hmovk'⟩ := movk_spec t (by decide : 0 < 32)
  obtain ⟨-, hread, hkeep⟩ := put_spec hfirst hmovz
  -- The first store leaves the call and the `nop`, so the second one finds the same form.
  have htail' : gdTailIsCallNop mid (offset + 4) = true := by
    rw [gdTailIsCallNop_congr (by omega) (hkeep _ (by omega)) (hkeep _ (by omega)), htail]
  rw [relaxTls, if_neg (by decide), if_pos rfl, htail', if_pos rfl, values.at_tpoff, if_neg hfits,
    htpoff] at hsecond
  obtain ⟨first, hput, hrest⟩ := bind_eq_ok.mp hsecond
  obtain ⟨hfetch, hbefore⟩ := put_tail (by omega) hput hmovk hrest
  obtain ⟨cpu₁, hrun₁, hx₁, htp₁⟩ := run_movz_movk (by decide) hmovz' hmovk'
    [MRS_TPIDR_X0 ||| 1, ADD_X0_X1_X0] cpu
  obtain ⟨cpu₂, hrun₂, hx₂⟩ := run_add_tp cpu₁
  refine ⟨_, cpu₂, fetch_succ ((hbefore _ (by omega)).trans hread) hfetch, hrun₁.trans hrun₂, ?_⟩
  show cpu₂.x 0 = _
  rw [hx₂, hx₁, htp₁, prescribed, htpoff, asU64]
  omega

theorem preserves_gdNop_ie (h : Sequence.gdNop.Holds out offset) :
    Preserves .gdNop .gdToIe call values out offset := by
  intro out' hok cpu hpc
  obtain ⟨hle, hlen⟩ := h.bounds 4 rfl
  obtain ⟨mid, hfirst, hsecond⟩ :=
    (relaxSequence_two rfl (by decide) (by decide) (by omega)).mp hok
  rw [relaxTls, if_pos rfl] at hfirst
  obtain ⟨w₀, hencode₀, hput₀⟩ := patch_eq_ok.mp hfirst
  obtain ⟨hw₀, page, hdecode₀, hpage⟩ := adrp_spec hencode₀
  obtain ⟨-, hread, -⟩ := put_spec hput₀ hw₀
  rw [relaxTls, if_neg (by decide), if_pos rfl] at hsecond
  split at hsecond
  · exact nomatch hsecond
  obtain ⟨first, hpatch, hrest⟩ := bind_eq_ok.mp hsecond
  obtain ⟨w₁, hencode₁, hput₁⟩ := patch_eq_ok.mp hpatch
  obtain ⟨hw₁, hdecode₁⟩ := ldrOffset_spec values.got_lt hencode₁
  obtain ⟨hfetch, hbefore⟩ := put_tail (by omega) hput₁ hw₁ hrest
  obtain ⟨cpu₁, hrun₁, hx₁, htp₁⟩ := run_adrp_ldr hdecode₀ hpage hdecode₁
    [MRS_TPIDR_X0 ||| 1, ADD_X0_X1_X0] hpc
  obtain ⟨cpu₂, hrun₂, hx₂⟩ := run_add_tp cpu₁
  refine ⟨_, cpu₂, fetch_succ ((hbefore _ (by omega)).trans hread) hfetch, hrun₁.trans hrun₂, ?_⟩
  show cpu₂.x 0 = _
  rw [hx₂, hx₁, htp₁, prescribed]

/-- Without the trailing `nop` there is no initial-exec form. -/
theorem preserves_gd_ie (h : Sequence.gd.Holds out offset) :
    Preserves .gd .gdToIe call values out offset := by
  intro out' hok
  obtain ⟨hle, hlen⟩ := h.bounds 3 rfl
  obtain ⟨mid, hfirst, hsecond⟩ :=
    (relaxSequence_two rfl (by decide) (by decide) (by omega)).mp hok
  rw [relaxTls, if_pos rfl] at hfirst
  obtain ⟨w₀, hencode₀, hput₀⟩ := patch_eq_ok.mp hfirst
  obtain ⟨-, -, hkeep⟩ := put_spec hput₀ (adrp_spec hencode₀).1
  have htail' : gdTailIsCallNop mid (offset + 4) = false := by
    rw [gdTailIsCallNop_congr (by omega) (hkeep _ (by omega)) (hkeep _ (by omega)),
      gdTailIsCallNop_of_gd h]
  rw [relaxTls, if_neg (by decide), if_pos rfl, if_pos htail'] at hsecond
  exact nomatch hsecond

theorem exists_put (out : List UInt8) (value : ℕ) (h : at_ + 4 ≤ out.length) :
    ∃ out', put out at_ value = .ok out' :=
  ⟨_, put_eq_ok.mpr ⟨h, rfl⟩⟩

theorem encode_addHi12 (ht : t < 2 ^ 24) :
    ∃ w, Field.addHi12.encode (addImm 0 0) t = .ok w ∧ w < 2 ^ 32 ∧
      decode w = some (.addImm 0 0 (t / 2 ^ 12)) := by
  have hfits : ¬fitsUnsigned t 24 = false := by
    rw [Bool.not_eq_false, fitsUnsigned_iff (by decide)]
    omega
  have hvalue : asU32 ((t : ℤ) >>> (12 : ℕ)) % 2 ^ 12 = t / 2 ^ 12 := by
    rw [asU32_mod (by decide), Int.shiftRight_eq_div_pow]
    omega
  obtain ⟨hlt, hdecode⟩ := addImm_spec (asU32 ((t : ℤ) >>> (12 : ℕ)))
  rw [hvalue] at hdecode
  exact ⟨_, by rw [Field.encode, if_neg hfits], hlt, hdecode⟩

theorem encode_add12 (t : ℕ) :
    ∃ w, Field.add12.encode (addImm 0 0) t = .ok w ∧ w < 2 ^ 32 ∧
      decode w = some (.addImm 0 0 (t % 2 ^ 12)) := by
  have hvalue : (asU32 t &&& 0xfff) % 2 ^ 12 = t % 2 ^ 12 := by
    rw [show 0xfff = 2 ^ 12 - 1 from rfl, Nat.and_two_pow_sub_one_eq_mod, Nat.mod_mod,
      asU32_mod (by decide)]
    omega
  obtain ⟨hlt, hdecode⟩ := addImm_spec (asU32 t &&& 0xfff)
  rw [hvalue] at hdecode
  exact ⟨_, rfl, hlt, hdecode⟩

/-- What the three-slot form leaves, and what it computes: the upper half is not shifted back. -/
theorem relaxSequence_gd_le (call : Kind) (h : Sequence.gd.Holds out offset)
    (htpoff : values.tpoff = t) (ht : t < 2 ^ 24) :
    ∃ out' words, relaxSequence .gd .gdToLe call values out offset = .ok out' ∧
      fetch out' offset 3 = some words ∧ ∀ cpu, ∃ cpu', run words cpu = some cpu' ∧
        cpu'.x 0 = (cpu.tpidr + t / 2 ^ 12 + t % 2 ^ 12) % 2 ^ 64 := by
  obtain ⟨hle, hlen⟩ := h.bounds 3 rfl
  have htail := gdTailIsCallNop_of_gd h
  have hfits : ¬fitsUnsigned t 24 = false := by
    rw [Bool.not_eq_false, fitsUnsigned_iff (by decide)]
    omega
  obtain ⟨w₁, hencode₁, hw₁, hdecode₁⟩ := encode_addHi12 ht
  obtain ⟨w₂, hencode₂, hw₂, hdecode₂⟩ := encode_add12 t
  obtain ⟨mid, hput₀⟩ := exists_put out MRS_TPIDR_X0 (by omega : offset + 4 ≤ out.length)
  obtain ⟨hlen₀, hread₀, hkeep₀⟩ := put_spec hput₀ (by decide)
  obtain ⟨mid', hput₁⟩ := exists_put mid w₁ (by omega : offset + 4 + 4 ≤ mid.length)
  obtain ⟨hlen₁, hread₁, hkeep₁⟩ := put_spec hput₁ hw₁
  obtain ⟨out', hput₂⟩ := exists_put mid' w₂ (by omega : offset + 4 + 4 + 4 ≤ mid'.length)
  obtain ⟨-, hread₂, hkeep₂⟩ := put_spec hput₂ hw₂
  have htail' : gdTailIsCallNop mid (offset + 4) = false := by
    rw [gdTailIsCallNop_congr (by omega) (hkeep₀ _ (by omega)) (hkeep₀ _ (by omega)), htail]
  refine ⟨out', [MRS_TPIDR_X0, w₁, w₂], ?_, fetch_succ ?_ (fetch_succ ?_ (fetch_succ hread₂ rfl)),
    fun cpu => ?_⟩
  · rw [relaxSequence_two rfl (by decide) (by decide) (by omega)]
    refine ⟨mid, ?_, ?_⟩
    · rw [relaxTls, if_pos rfl, wrappingAdd_of_lt (by omega), htail]
      exact hput₀
    · rw [relaxTls, if_neg (by decide), if_pos rfl, htail', values.at_tpoff, htpoff,
        if_neg (by decide), if_neg hfits, wrappingAdd_of_lt (by omega)]
      exact bind_eq_ok.mpr ⟨mid', patch_eq_ok.mpr ⟨w₁, hencode₁, hput₁⟩,
        patch_eq_ok.mpr ⟨w₂, hencode₂, hput₂⟩⟩
  · exact (hkeep₂ _ (by omega)).trans ((hkeep₁ _ (by omega)).trans hread₀)
  · exact (hkeep₂ _ (by omega)).trans hread₁
  · obtain ⟨cpu₁, hrun₁, hx₁⟩ := run_mrs_add hdecode₁ [w₂] cpu
    refine ⟨_, hrun₁.trans ((run_cons hdecode₂ [] cpu₁).trans rfl), ?_⟩
    simp only [step, Cpu.next_x]
    rw [Cpu.setSp_x_self _ _ (by decide), Cpu.regSp_of_ne _ (by decide), hx₁, Nat.mod_add_mod]

/-- The three-slot form fails for an offset that is not one of 24 bits. -/
theorem tpoff_of_relaxSequence_gd_le (h : Sequence.gd.Holds out offset)
    (hok : relaxSequence .gd .gdToLe call values out offset = .ok out') :
    ∃ t : ℕ, values.tpoff = t ∧ t < 2 ^ 24 := by
  obtain ⟨hle, hlen⟩ := h.bounds 3 rfl
  have htail := gdTailIsCallNop_of_gd h
  obtain ⟨mid, hfirst, hsecond⟩ :=
    (relaxSequence_two rfl (by decide) (by decide) (by omega)).mp hok
  rw [relaxTls, if_pos rfl, wrappingAdd_of_lt (by omega), htail] at hfirst
  obtain ⟨-, -, hkeep⟩ := put_spec hfirst (by decide)
  have htail' : gdTailIsCallNop mid (offset + 4) = false := by
    rw [gdTailIsCallNop_congr (by omega) (hkeep _ (by omega)) (hkeep _ (by omega)), htail]
  rw [relaxTls, if_neg (by decide), if_pos rfl, htail', if_neg (by decide), values.at_tpoff]
    at hsecond
  split at hsecond
  · exact nomatch hsecond
  · next hfits => exact exists_natCast_of_fits (by decide) hfits

theorem split_ne (h : 4096 ≤ t) (ht : t < 2 ^ 24) :
    (0 + t / 2 ^ 12 + t % 2 ^ 12) % 2 ^ 64 ≠ asU64 ((0 : ℕ) + t) := by
  have hsum : 0 + t / 2 ^ 12 + t % 2 ^ 12 < t := by omega
  have hvalue : asU64 ((0 : ℕ) + t) = t := by rw [asU64]; omega
  rw [hvalue]
  omega

/-- **The three-slot form is right for offsets of twelve bits only.** -/
theorem preserves_gd_le_iff (h : Sequence.gd.Holds out offset) :
    Preserves .gd .gdToLe call values out offset ↔
      ¬(4096 ≤ values.tpoff ∧ values.tpoff < 2 ^ 24) := by
  refine ⟨fun hall hrange => ?_, fun hrange out' hok cpu _ => ?_⟩
  · obtain ⟨t, htpoff⟩ := Int.eq_ofNat_of_zero_le (by omega : 0 ≤ values.tpoff)
    obtain ⟨out', words, hok, hfetch, hrun⟩ :=
      relaxSequence_gd_le call h htpoff (by omega)
    obtain ⟨cpu, hpc, htp⟩ : ∃ cpu : Cpu, cpu.pc = values.place ∧ cpu.tpidr = 0 :=
      ⟨⟨fun _ => 0, 0, 0, values.place, fun _ => 0⟩, rfl, rfl⟩
    obtain ⟨words', cpu₁, hfetch', hrun₁, hx₁⟩ := hall out' hok cpu hpc
    obtain rfl := Option.some.inj (hfetch.symm.trans hfetch')
    obtain ⟨cpu₂, hrun₂, hx₂⟩ := hrun cpu
    obtain rfl := Option.some.inj (hrun₁.symm.trans hrun₂)
    have hx : cpu₁.x 0 = prescribed .gdToLe values cpu := hx₁
    rw [hx₂, prescribed, htpoff, htp] at hx
    rw [htpoff] at hrange
    exact split_ne (by omega) (by omega) hx
  · obtain ⟨t, htpoff, ht⟩ := tpoff_of_relaxSequence_gd_le h hok
    obtain ⟨_, words, hok', hfetch, hrun⟩ := relaxSequence_gd_le call h htpoff ht
    obtain rfl := Except.ok.inj (hok.symm.trans hok')
    obtain ⟨cpu', hrun, hx⟩ := hrun cpu
    refine ⟨words, cpu', hfetch, hrun, ?_⟩
    show cpu'.x 0 = _
    rw [hx, prescribed, htpoff, asU64]
    omega

/-! ### The other accesses -/

theorem preserves_ld_le (h : Sequence.ld.Holds out offset) :
    Preserves .ld .ldToLe call values out offset := by
  intro out' hok cpu _
  obtain ⟨hle, hlen⟩ := h.bounds 3 rfl
  obtain ⟨mid, hfirst, hsecond⟩ :=
    (relaxSequence_two rfl (by decide) (by decide) (by omega)).mp hok
  rw [relaxTls, if_pos rfl] at hfirst
  obtain ⟨-, hread₀, -⟩ := put_spec hfirst (by decide)
  rw [relaxTls, if_neg (by decide), if_pos rfl, values.at_tpoff, wrappingAdd_of_lt (by omega)]
    at hsecond
  obtain ⟨mid', hpatch, hput₂⟩ := bind_eq_ok.mp hsecond
  obtain ⟨w₁, hencode₁, hput₁⟩ := patch_eq_ok.mp hpatch
  rw [Field.encode] at hencode₁
  split at hencode₁
  · exact nomatch hencode₁
  next hfits =>
  obtain ⟨t, htpoff, ht⟩ := exists_natCast_of_fits (by decide) hfits
  obtain rfl := Except.ok.inj hencode₁
  obtain ⟨hw₁, hdecode₁⟩ := addImm_spec (asU32 values.tpoff)
  have hvalue : asU32 values.tpoff % 2 ^ 12 = t := by
    rw [asU32_mod (by decide), htpoff]
    omega
  rw [hvalue] at hdecode₁
  obtain ⟨-, hread₁, hkeep₁⟩ := put_spec hput₁ hw₁
  obtain ⟨-, hread₂, hkeep₂⟩ := put_spec hput₂ (by decide)
  obtain ⟨cpu₁, hrun₁, hx₁⟩ := run_mrs_add hdecode₁ [NOP] cpu
  refine ⟨_, _, fetch_succ ?_ (fetch_succ ?_ (fetch_succ hread₂ rfl)),
    hrun₁.trans ((run_cons decode_nop [] cpu₁).trans rfl), ?_⟩
  · exact (hkeep₂ _ (by omega)).trans ((hkeep₁ _ (by omega)).trans hread₀)
  · exact (hkeep₂ _ (by omega)).trans hread₁
  · show cpu₁.x 0 = _
    rw [hx₁, prescribed, htpoff, asU64]
    omega

theorem destinationRegister_of_decode {insn : Insn} (h : decode word = some insn)
    (hinsn : (∃ page, insn = .adrp n page) ∨ ∃ imm, insn = .ldr n n imm) :
    destinationRegister word = n := by
  have hlow : destinationRegister word = bits word 0 5 := by
    rw [destinationRegister, show 0x1f = 2 ^ 5 - 1 from rfl, Nat.and_two_pow_sub_one_eq_mod, bits,
      pow_zero, Nat.div_one]
  rw [hlow]
  rw [decode] at h
  obtain ⟨page, rfl⟩ | ⟨imm, rfl⟩ := hinsn <;> grind

theorem preserves_ie_le (h : (Sequence.ie n).Holds out offset) :
    Preserves (.ie n) .ieToLe call values out offset := by
  intro out' hok cpu _
  obtain ⟨hle, hlen⟩ := h.bounds 2 rfl
  obtain ⟨words, hfetch, hwords⟩ := h.words
  obtain ⟨a, _, rfl, ha, hfetch⟩ := fetch_succ_eq_some hfetch
  obtain ⟨b, _, rfl, hb, hfetch⟩ := fetch_succ_eq_some hfetch
  obtain rfl := Option.some.inj hfetch
  obtain ⟨hn, ⟨page, hadrp⟩, imm, hldr⟩ := hwords
  have hregister₀ := destinationRegister_of_decode hadrp (.inl ⟨page, rfl⟩)
  have hregister₁ := destinationRegister_of_decode hldr (.inr ⟨imm, rfl⟩)
  obtain ⟨mid, hfirst, hsecond⟩ :=
    (relaxSequence_two rfl (by decide) (by decide) (by omega)).mp hok
  rw [relaxTls] at hfirst
  split at hfirst
  · exact nomatch hfirst
  next hfits =>
  obtain ⟨t, htpoff, ht⟩ := exists_natCast_of_fits (by decide) hfits
  obtain ⟨hmovz, hmovz'⟩ := movz_spec (by omega : n < 32) ht
  obtain ⟨hmovk, hmovk'⟩ := movk_spec t (by omega : n < 32)
  obtain ⟨a', hget₀, hfirst⟩ := bind_eq_ok.mp hfirst
  obtain rfl := Option.some.inj (ha.symm.trans (okOrElse_eq_ok.mp hget₀))
  rw [if_pos rfl, hregister₀, htpoff] at hfirst
  obtain ⟨-, hread₀, hkeep₀⟩ := put_spec hfirst hmovz
  rw [relaxTls, values.at_tpoff, if_neg hfits] at hsecond
  obtain ⟨b', hget₁, hsecond⟩ := bind_eq_ok.mp hsecond
  have hb' := (hkeep₀ (offset + 4) (by omega)).symm.trans (okOrElse_eq_ok.mp hget₁)
  obtain rfl := Option.some.inj (hb.symm.trans hb')
  rw [if_neg (by decide), if_pos rfl, hregister₁, htpoff] at hsecond
  obtain ⟨-, hread₁, hkeep₁⟩ := put_spec hsecond hmovk
  obtain ⟨cpu₁, hrun₁, hx₁, -⟩ := run_movz_movk hn hmovz' hmovk' [] cpu
  refine ⟨_, cpu₁, fetch_succ ((hkeep₁ _ (by omega)).trans hread₀) (fetch_succ hread₁ rfl),
    hrun₁.trans rfl, ?_⟩
  show cpu₁.x n = _
  rw [hx₁, prescribed, htpoff, asU64]
  omega

theorem relaxSequence_desc (hoffset : offset + 12 < 2 ^ 64) :
    relaxSequence .desc kind call values out offset = .ok out' ↔
      ∃ mid₀, relaxTls out offset kind R_AARCH64_TLSDESC_ADR_PAGE21 values = .ok mid₀ ∧
      ∃ mid₁, relaxTls mid₀ (offset + 4) kind R_AARCH64_TLSDESC_LD64_LO12 (values.at 4) = .ok mid₁ ∧
      ∃ mid₂, relaxTls mid₁ (offset + 8) kind R_AARCH64_TLSDESC_ADD_LO12 (values.at 8) = .ok mid₂ ∧
        relaxTls mid₂ (offset + 12) call R_AARCH64_TLSDESC_CALL (values.at 12) = .ok out' := by
  rw [relaxSequence, Sequence.relocations]
  simp only [List.foldlM_cons, List.foldlM_nil, bind_pure, bind_eq_ok,
    wrappingAdd_of_lt hoffset, wrappingAdd_of_lt (by omega : offset + 8 < 2 ^ 64),
    wrappingAdd_of_lt (by omega : offset + 4 < 2 ^ 64),
    wrappingAdd_of_lt (by omega : offset + 0 < 2 ^ 64), values.at_zero, Nat.add_zero]
  rfl

theorem put_of_relaxTls_descCall
    (hkind : kind = .descToLe ∨ kind = .descToIe ∨ kind = .descCallToLe)
    (hr : rType = R_AARCH64_TLSDESC_ADD_LO12 ∨ rType = R_AARCH64_TLSDESC_CALL)
    (h : relaxTls out offset kind rType values = .ok out') : put out offset NOP = .ok out' := by
  have h₀ : rType ≠ R_AARCH64_TLSDESC_ADR_PAGE21 := by rcases hr with rfl | rfl <;> decide
  have h₁ : rType ≠ R_AARCH64_TLSDESC_LD64_LO12 := by rcases hr with rfl | rfl <;> decide
  rcases hkind with rfl | rfl | rfl
  · rw [relaxTls, if_neg h₀, if_neg h₁, if_pos hr] at h
    split at h
    · exact nomatch h
    · exact h
  · rwa [relaxTls, if_neg h₀, if_neg h₁, if_pos hr] at h
  · rw [relaxTls, if_neg h₀, if_neg h₁, if_pos hr] at h
    split at h
    · exact nomatch h
    · exact h

theorem put_nops {mid₁ mid₂ : List UInt8} (hkind : kind = .descToLe ∨ kind = .descToIe)
    (hcall : call = kind ∨ call = .descCallToLe)
    (h₂ : relaxTls mid₁ (offset + 8) kind R_AARCH64_TLSDESC_ADD_LO12 (values.at 8) = .ok mid₂)
    (h₃ : relaxTls mid₂ (offset + 12) call R_AARCH64_TLSDESC_CALL (values.at 12) = .ok out') :
    fetch out' (offset + 8) 2 = some [NOP, NOP] ∧
      ∀ other, other + 4 ≤ offset + 8 → readInsn out' other = readInsn mid₁ other := by
  have hput₂ := put_of_relaxTls_descCall (by tauto) (.inl rfl) h₂
  have hput₃ := put_of_relaxTls_descCall (by rcases hcall with rfl | rfl <;> tauto) (.inr rfl) h₃
  obtain ⟨-, hread₂, hkeep₂⟩ := put_spec hput₂ (by decide)
  obtain ⟨-, hread₃, hkeep₃⟩ := put_spec hput₃ (by decide)
  refine ⟨fetch_succ ((hkeep₃ _ (by omega)).trans hread₂) (fetch_succ hread₃ rfl), ?_⟩
  intro other hother
  rw [hkeep₃ _ (by omega), hkeep₂ _ (by omega)]

theorem run_nops (cpu : Cpu) : ∃ cpu', run [NOP, NOP] cpu = some cpu' ∧ cpu'.x = cpu.x := by
  rw [run_cons decode_nop, run_cons decode_nop, run]
  exact ⟨_, rfl, rfl⟩

theorem preserves_desc_le (hcall : call = .descToLe ∨ call = .descCallToLe)
    (h : Sequence.desc.Holds out offset) : Preserves .desc .descToLe call values out offset := by
  intro out' hok cpu _
  obtain ⟨hle, hlen⟩ := h.bounds 4 rfl
  obtain ⟨mid₀, h₀, mid₁, h₁, mid₂, h₂, h₃⟩ := (relaxSequence_desc (by omega)).mp hok
  obtain ⟨hfetch, hbefore⟩ := put_nops (.inl rfl) hcall h₂ h₃
  rw [relaxTls] at h₀
  split at h₀
  · exact nomatch h₀
  next hfits =>
  obtain ⟨t, htpoff, ht⟩ := exists_natCast_of_fits (by decide) hfits
  obtain ⟨hmovz, hmovz'⟩ := movz_spec (by decide : 0 < 32) ht
  obtain ⟨hmovk, hmovk'⟩ := movk_spec t (by decide : 0 < 32)
  rw [if_pos rfl, htpoff] at h₀
  rw [relaxTls, values.at_tpoff, if_neg hfits, if_neg (by decide), if_pos rfl, htpoff] at h₁
  obtain ⟨-, hread₀, -⟩ := put_spec h₀ hmovz
  obtain ⟨-, hread₁, hkeep₁⟩ := put_spec h₁ hmovk
  obtain ⟨cpu₁, hrun₁, hx₁, -⟩ := run_movz_movk (by decide) hmovz' hmovk' [NOP, NOP] cpu
  obtain ⟨cpu₂, hrun₂, hx₂⟩ := run_nops cpu₁
  refine ⟨_, cpu₂, fetch_succ ?_ (fetch_succ ?_ hfetch), hrun₁.trans hrun₂, ?_⟩
  · exact (hbefore _ (by omega)).trans ((hkeep₁ _ (by omega)).trans hread₀)
  · exact (hbefore _ (by omega)).trans hread₁
  · show cpu₂.x 0 = _
    rw [hx₂, hx₁, prescribed, htpoff, asU64]
    omega

theorem preserves_desc_ie (hcall : call = .descToIe ∨ call = .descCallToLe)
    (h : Sequence.desc.Holds out offset) : Preserves .desc .descToIe call values out offset := by
  intro out' hok cpu hpc
  obtain ⟨hle, hlen⟩ := h.bounds 4 rfl
  obtain ⟨mid₀, h₀, mid₁, h₁, mid₂, h₂, h₃⟩ := (relaxSequence_desc (by omega)).mp hok
  obtain ⟨hfetch, hbefore⟩ := put_nops (.inr rfl) hcall h₂ h₃
  rw [relaxTls, if_pos rfl] at h₀
  rw [relaxTls, if_neg (by decide), if_pos rfl, values.at_got] at h₁
  obtain ⟨w₀, hencode₀, hput₀⟩ := patch_eq_ok.mp h₀
  obtain ⟨w₁, hencode₁, hput₁⟩ := patch_eq_ok.mp h₁
  obtain ⟨hw₀, page, hdecode₀, hpage⟩ := adrp_spec hencode₀
  obtain ⟨hw₁, hdecode₁⟩ := ldrOffset_spec values.got_lt hencode₁
  obtain ⟨-, hread₀, -⟩ := put_spec hput₀ hw₀
  obtain ⟨-, hread₁, hkeep₁⟩ := put_spec hput₁ hw₁
  obtain ⟨cpu₁, hrun₁, hx₁, -⟩ := run_adrp_ldr hdecode₀ hpage hdecode₁ [NOP, NOP] hpc
  obtain ⟨cpu₂, hrun₂, hx₂⟩ := run_nops cpu₁
  refine ⟨_, cpu₂, fetch_succ ?_ (fetch_succ ?_ hfetch), hrun₁.trans hrun₂, ?_⟩
  · exact (hbefore _ (by omega)).trans ((hkeep₁ _ (by omega)).trans hread₀)
  · exact (hbefore _ (by omega)).trans hread₁
  · show cpu₂.x 0 = _
    rw [hx₂, hx₁, prescribed]

/-! ### Every sequence and kind -/

/-- The relocation types a relaxation rewrites. -/
def Kind.rewrites : Kind → List ℕ
  | .gdToLe | .gdToIe => [R_AARCH64_TLSGD_ADR_PAGE21, R_AARCH64_TLSGD_ADD_LO12_NC]
  | .ldToLe => [R_AARCH64_TLSLD_ADR_PAGE21, R_AARCH64_TLSLD_ADD_LO12_NC]
  | .ieToLe =>
    [R_AARCH64_TLSIE_ADR_GOTTPREL_PAGE21, R_AARCH64_TLSIE_LD64_GOTTPREL_LO12_NC,
      R_AARCH64_TLSIE_MOVW_GOTTPREL_G1, R_AARCH64_TLSIE_MOVW_GOTTPREL_G0_NC]
  | .descToLe | .descCallToLe | .descToIe =>
    [R_AARCH64_TLSDESC_ADR_PAGE21, R_AARCH64_TLSDESC_LD64_LO12, R_AARCH64_TLSDESC_ADD_LO12,
      R_AARCH64_TLSDESC_CALL]
  | _ => []

theorem mem_rewrites_of_relaxTls (h : relaxTls out offset kind rType values = .ok out') :
    rType ∈ kind.rewrites := by
  by_contra hr
  cases kind <;>
    simp only [Kind.rewrites, List.mem_cons, List.not_mem_nil, or_false, not_or] at hr <;>
    simp only [relaxTls, hr, or_self, if_false, reduceCtorEq] at h
  case ieToLe =>
    split at h
    · cases h
    · obtain ⟨_, -, h⟩ := bind_eq_ok.mp h
      cases h
  all_goals split at h <;> cases h

/-- The kinds of relaxation. -/
def relaxations : List Kind := [.gdToLe, .gdToIe, .ldToLe, .ieToLe, .descToLe, .descToIe]

theorem preserves_of_not_mem (h : seq.Holds out offset)
    (hseq : seq.relocations.head? = some (0, rType)) (hkind : rType ∉ kind.rewrites) :
    Preserves seq kind call values out offset := by
  intro out' hok
  obtain ⟨hle, hlen⟩ := h.bounds seq.count rfl
  cases seq with
  | desc =>
    obtain ⟨-, rfl⟩ := Prod.mk.inj (Option.some.inj hseq)
    obtain ⟨_, hfirst, -⟩ := (relaxSequence_desc (by rw [Sequence.count] at hle; omega)).mp hok
    exact absurd (mem_rewrites_of_relaxTls hfirst) hkind
  | gd | gdNop | ld | ie n =>
    obtain ⟨-, rfl⟩ := Prod.mk.inj (Option.some.inj hseq)
    obtain ⟨_, hfirst, -⟩ := (relaxSequence_two rfl (by decide) (by decide)
      (by rw [Sequence.count] at hle; omega)).mp hok
    exact absurd (mem_rewrites_of_relaxTls hfirst) hkind

/-- **A relaxed TLS sequence computes the address the ABI prescribes, except where the three-slot
general-dynamic form has an offset of more than twelve bits (proved).** -/
theorem relaxSequence_preserves_iff {seq : Sequence} {kind : Kind} (hkind : kind ∈ relaxations)
    (hcall : call = kind ∨ call = .descCallToLe) (h : seq.Holds out offset) :
    Preserves seq kind call values out offset ↔
      ¬(seq = .gd ∧ kind = .gdToLe ∧ 4096 ≤ values.tpoff ∧ values.tpoff < 2 ^ 24) := by
  by_cases hgd : seq = .gd ∧ kind = .gdToLe
  · obtain ⟨rfl, rfl⟩ := hgd
    rw [preserves_gd_le_iff h]
    simp only [true_and]
  · refine ⟨fun _ hbad => hgd ⟨hbad.1, hbad.2.1⟩, fun _ => ?_⟩
    simp only [relaxations, List.mem_cons, List.not_mem_nil, or_false] at hkind
    cases seq with
    | gd =>
      rcases hkind with rfl | rfl | rfl | rfl | rfl | rfl
      · exact absurd ⟨rfl, rfl⟩ hgd
      · exact preserves_gd_ie h
      all_goals exact preserves_of_not_mem h rfl (by decide)
    | gdNop =>
      rcases hkind with rfl | rfl | rfl | rfl | rfl | rfl
      · exact preserves_gdNop_le h
      · exact preserves_gdNop_ie h
      all_goals exact preserves_of_not_mem h rfl (by decide)
    | ld =>
      rcases hkind with rfl | rfl | rfl | rfl | rfl | rfl
      case inr.inr.inl => exact preserves_ld_le h
      all_goals exact preserves_of_not_mem h rfl (by decide)
    | ie n =>
      rcases hkind with rfl | rfl | rfl | rfl | rfl | rfl
      case inr.inr.inr.inl => exact preserves_ie_le h
      all_goals exact preserves_of_not_mem h rfl (by decide)
    | desc =>
      rcases hkind with rfl | rfl | rfl | rfl | rfl | rfl
      case inr.inr.inr.inr.inl => exact preserves_desc_le hcall h
      case inr.inr.inr.inr.inr => exact preserves_desc_ie hcall h
      all_goals exact preserves_of_not_mem h rfl (by decide)

/-- `adrp x0; add x0, x0, #0; bl __tls_get_addr; nop` -/
def gdNopCode : List UInt8 :=
  leBytes 4 0x90000000 ++ leBytes 4 0x91000000 ++ leBytes 4 0x94000000 ++ leBytes 4 NOP

theorem gdNopCode_holds : Sequence.gdNop.Holds gdNopCode 0 :=
  ⟨by decide, ⟨[0x90000000, 0x91000000, 0x94000000, NOP], by decide,
    ⟨0, by decide⟩, ⟨0, by decide⟩, rfl, rfl⟩, fun h => nomatch h⟩

/-- An access to offset `0x48`, as compilers emit it. -/
theorem relaxSequence_gdNop_sample :
    Sequence.gdNop.Holds gdNopCode 0 ∧
      (relaxSequence .gdNop .gdToLe .gdToLe
        ⟨0x48, 0, 0x400000, by decide, by decide, by decide⟩ gdNopCode 0).isOk = true ∧
      Preserves .gdNop .gdToLe .gdToLe ⟨0x48, 0, 0x400000, by decide, by decide, by decide⟩
        gdNopCode 0 :=
  ⟨gdNopCode_holds, by decide, (relaxSequence_preserves_iff (by decide) (.inl rfl)
    gdNopCode_holds).mpr (by decide)⟩

/-- `adrp x0; add x0, x0, #0; bl __tls_get_addr` -/
def gdCode : List UInt8 :=
  leBytes 4 0x90000000 ++ leBytes 4 0x91000000 ++ leBytes 4 0x94000000

/-- Without the `nop`, the access to offset `0x1000` is relaxed to `mrs x0, tpidr_el0;
add x0, x0, #1; add x0, x0, #0`. -/
theorem relaxSequence_gd_high :
    Sequence.gd.Holds gdCode 0 ∧
      ¬Preserves .gd .gdToLe .gdToLe ⟨0x1000, 0, 0x400000, by decide, by decide, by decide⟩
        gdCode 0 := by
  have hholds : Sequence.gd.Holds gdCode 0 :=
    ⟨by decide, ⟨[0x90000000, 0x91000000, 0x94000000], by decide,
      ⟨0, by decide⟩, ⟨0, by decide⟩, rfl⟩, fun _ => by decide⟩
  refine ⟨hholds, ?_⟩
  rw [preserves_gd_le_iff hholds, not_not]
  decide

end Qld.Elf.Arch
