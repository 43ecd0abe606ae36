import Qld.Arch.Ppc64Fields

/-!
# TOC-relative pairs and thunks of PowerPC64

* `TocWord` — the second word of a pair: the instruction through the register its `#ha` chose;
* `toc_address` — where the two words of a pair take the address from, they agree;
* `thunk_run` — a thunk goes to its destination;
* `fields_pairs_and_thunks` — when fields, pairs and thunks do what they should.
-/

namespace Qld.Arch.Ppc64

open Qld.Lib
open Qld.Lib.A64 (signExtend)
open Qld.Lib.Ppc64
open Qld.Arch.Aarch64 (asU32 asU64 asI64)

/-! ### The second word of a pair -/

/-- The word of an access or an `addi` whose base register follows from the value. -/
structure TocWord (insn word v : ℕ) (form : Form) : Prop where
  opcode : bits word 26 6 = bits insn 26 6
  target : bits word 21 5 = bits insn 21 5
  base : bits word 16 5 = if haIsZero v then 2 else bits insn 16 5
  reserved : bits word 0 form.reserved = bits insn 0 form.reserved
  displaced : displacement form word = signExtend 16 (lo v)

/-- A word that keeps some low bits: through `r2`, or through its own register. -/
def tocWord (insn v mask : ℕ) : ℕ :=
  if haIsZero v then (insn &&& (0xffe00000 ||| mask)) ||| 0x00020000 ||| lo v
  else low insn ((insn &&& mask) ||| lo v)

section Word

variable {insn word v mask : ℕ}

/-- The opcode and the registers, whatever low bits are kept. -/
theorem tocWord_registers (insn v : ℕ) (hmask : mask < 2 ^ 16) :
    bits (tocWord insn v mask) 26 6 = bits insn 26 6 ∧
      bits (tocWord insn v mask) 21 5 = bits insn 21 5 ∧
        bits (tocWord insn v mask) 16 5 = if haIsZero v then 2 else bits insn 16 5 := by
  have hupper (l w : ℕ) (h : 16 ≤ l) : bits (lo v) l w = 0 ∧ bits mask l w = 0 :=
    ⟨bits_eq_zero w ((lo_lt v).trans_le (Nat.pow_le_pow_right (by decide) h)),
      bits_eq_zero w (hmask.trans_le (Nat.pow_le_pow_right (by decide) h))⟩
  rw [tocWord]
  by_cases hzero : haIsZero v = true
  · rw [if_pos hzero, if_pos hzero]
    exact ⟨by simp [hupper], by simp [hupper], by simp [hupper]⟩
  · rw [if_neg hzero, if_neg hzero]
    exact ⟨by simp [low], by simp [low], by simp [low]⟩

/-- The low bits of the instruction that are kept, and the low part. -/
theorem tocWord_low (insn v : ℕ) (hmask : mask < 2 ^ 16) :
    bits (tocWord insn v mask) 0 16 = (insn &&& mask) ||| lo v := by
  have hkept : bits (insn &&& mask) 0 16 = insn &&& mask :=
    bits_zero_of_lt (Nat.and_lt_two_pow _ hmask)
  have hlo : bits (lo v) 0 16 = lo v := bits_zero_of_lt (lo_lt v)
  rw [tocWord]
  by_cases hzero : haIsZero v = true
  · rw [if_pos hzero, Nat.and_or_distrib_left]
    simp only [bits_or, hkept, hlo]
    simp
  · rw [if_neg hzero]
    have hhalf : bits ((insn &&& mask) ||| lo v) 0 16 = (insn &&& mask) ||| lo v := by
      rw [bits_or, hkept, hlo]
    generalize (insn &&& mask) ||| lo v = half at hhalf ⊢
    refine Eq.trans ?_ hhalf
    simp [low]

theorem tocWord_spec (form : Form) (hmod : lo v % 2 ^ form.reserved = 0) :
    TocWord insn (tocWord insn v (2 ^ form.reserved - 1)) v form := by
  have hmask : 2 ^ form.reserved - 1 < 2 ^ 16 := by cases form <;> decide
  have hlow := tocWord_low insn v hmask
  obtain ⟨hopcode, htarget, hbase⟩ := tocWord_registers insn v hmask
  generalize tocWord insn v (2 ^ form.reserved - 1) = word at hlow hopcode htarget hbase ⊢
  rw [Nat.and_two_pow_sub_one_eq_mod] at hlow
  have hlt := lo_lt v
  -- The low bits of the word, and those above the ones that are kept.
  have hinner (l w : ℕ) (h : l + w ≤ 16) :
      bits word l w = bits (insn % 2 ^ form.reserved) l w ||| bits (lo v) l w := by
    have hword : bits word 0 16 = word % 2 ^ 16 := by rw [bits, Nat.pow_zero, Nat.div_one]
    rw [← bits_or, ← hlow, hword, bits_mod word h]
  refine ⟨hopcode, htarget, hbase, ?_, ?_⟩
  · have hzero : bits (lo v) 0 form.reserved = 0 := by
      rw [bits, Nat.pow_zero, Nat.div_one, hmod]
    rw [hinner 0 form.reserved (by cases form <;> decide), hzero, Nat.or_zero,
      bits_mod insn (Nat.zero_add _).le]
  · have hvalue : bits word form.reserved (16 - form.reserved) * 2 ^ form.reserved = lo v := by
      rw [hinner _ _ (by cases form <;> decide),
        bits_eq_zero _ (Nat.mod_lt insn (Nat.two_pow_pos _)), Nat.zero_or, bits]
      cases form <;> simp only [Form.reserved] at hmod ⊢ <;> omega
    rw [← hvalue]
    cases form with
    | d => rw [displacement, Form.reserved, Nat.pow_zero, Nat.mul_one]
    | ds => rfl
    | dq => rfl

theorem tocWord_of_encodeLoToc (h : encodeLoToc insn v = .ok word) : TocWord insn word v .d := by
  have hword : word = tocWord insn v 0 := by
    rw [encodeLoToc] at h
    rw [tocWord]
    by_cases hzero : haIsZero v = true
    · rw [if_pos hzero] at h ⊢
      rw [← Except.ok.inj (ite_error_eq_ok.mp h).2, Nat.or_zero]
    · rw [if_neg hzero] at h ⊢
      rw [← Except.ok.inj h, Nat.and_zero, Nat.zero_or]
  rw [hword]
  exact tocWord_spec .d (Nat.mod_one _)

theorem tocWord_of_loDsToc {value : ℤ} (hinsn : insn < 2 ^ 32)
    (h : Field.loDsToc.encode32 insn value = .ok word) :
    TocWord insn word (asU64 value) (scaledForm insn) := by
  obtain ⟨hmask, h⟩ := ite_error_eq_ok.mp h
  have hword : word = tocWord insn (asU64 value) (dsMask insn) := by
    rw [tocWord]
    by_cases hzero : haIsZero (asU64 value) = true
    · rw [if_pos hzero] at h ⊢
      exact (Except.ok.inj (ite_error_eq_ok.mp h).2).symm
    · rw [if_neg hzero] at h ⊢
      exact (Except.ok.inj h).symm
  have hreserved : dsMask insn = 2 ^ (scaledForm insn).reserved - 1 := by
    rw [dsMask_eq hinsn, scaledForm]
    by_cases hform : IsDq insn
    · rw [if_pos hform, if_pos hform]
      rfl
    · rw [if_neg hform, if_neg hform]
      rfl
  have hmod := Classical.not_not.mp hmask
  rw [hreserved, Nat.and_two_pow_sub_one_eq_mod] at hmod
  rw [hword, hreserved]
  exact tocWord_spec _ hmod

end Word

/-! ### Both words of a pair -/

/-- The second field of a pair that is kept as it is, and the form of its access. -/
def Field.access (field : Field) (insn : ℕ) : Option Form :=
  match field with
  | .loToc => some .d
  | .loDsToc => some (scaledForm insn)
  | _ => none

/-- A word does what an instruction did, at an address. -/
structure Accesses (cpu : Cpu) (form : Form) (insn word address : ℕ) : Prop where
  opcode : bits word 26 6 = bits insn 26 6
  target : bits word 21 5 = bits insn 21 5
  reserved : bits word 0 form.reserved = bits insn 0 form.reserved
  address : cpu.address (bits word 16 5) (displacement form word) = address

/-- A word leaves an address in a register. -/
def Computes (big : Bool) (cpu : Cpu) (word rt address : ℕ) : Prop :=
  (decode word).bind (exec big cpu) = some (cpu.set rt address).next

/-- A pair of instructions comes to the address `value` bytes from `r2`, whatever they became. -/
def PairReaches (big : Bool) (cpu : Cpu) (x first second : ℕ) (value : ℤ) : Prop :=
  ∀ word, Field.haToc.encode32 first value = .ok word →
    ∃ r, (decode word).bind (exec big cpu) = some { cpu with r }.next ∧ (∀ i ≠ x, r i = cpu.r i) ∧
      (∀ (field : Field) form other, field.access second = some form →
        field.encode32 second value = .ok other →
        Accesses { cpu with r }.next form second other ((cpu.r 2 + value) % 2 ^ 64).toNat) ∧
      (∀ rt si other, decode second = some (.addi rt x si) →
        Field.loToc.encode32 second value = .ok other →
        Computes big { cpu with r }.next other rt ((cpu.r 2 + value) % 2 ^ 64).toNat) ∧
      (∀ rt ds other, decode second = some (.ld rt x ds) →
        Field.loDsToAddi.encode32 second value = .ok other →
        Computes big { cpu with r }.next other rt ((cpu.r 2 + value) % 2 ^ 64).toNat)

section Pair

variable {big : Bool} {cpu : Cpu} {x insn word : ℕ} {si value : ℤ}

/-- What the first word leaves in the base of the second. -/
def tocRegisters (cpu : Cpu) (x : ℕ) (value : ℤ) : ℕ → ℕ :=
  if haIsZero (asU64 value) then cpu.r
  else Function.update cpu.r x
    (cpu.address 2 (signExtend 16 (ha (asU64 value)) * 2 ^ 16))

theorem exec_haToc (hinsn : decode insn = some (.addis x 2 si))
    (h : Field.haToc.encode32 insn value = .ok word) :
    (decode word).bind (exec big cpu) = some { cpu with r := tocRegisters cpu x value }.next := by
  rw [tocRegisters]
  by_cases hzero : haIsZero (asU64 value) = true
  · obtain rfl : NOP = word := Except.ok.inj ((if_pos hzero).symm.trans h)
    rw [if_pos hzero]
    rfl
  · have hword := (ite_error_eq_ok.mp ((if_neg hzero).symm.trans h)).2
    obtain rfl := Except.ok.inj hword
    obtain ⟨hopcode, htarget, hbase, -⟩ := decode_eq_addis.mp hinsn
    have hdecode : decode (low insn (ha (asU64 value))) =
        some (.addis x 2 (signExtend 16 (ha (asU64 value)))) := by
      refine decode_eq_addis.mpr ⟨Eq.trans ?_ hopcode, Eq.trans ?_ htarget, Eq.trans ?_ hbase, ?_⟩
      · simp [low]
      · simp [low]
      · simp [low]
      have hlow : bits (low insn (ha (asU64 value))) 0 16 = bits (ha (asU64 value)) 0 16 := by
        simp [low]
      rw [displacement, hlow, bits_zero_of_lt (ha_lt _)]
    rw [hdecode, if_neg hzero]
    rfl

/-- **The address of the second word.** -/
theorem toc_address {second other : ℕ} {form : Form} (hx : x ≠ 0) (hbase : bits second 16 5 = x)
    (hlow : -2 ^ 63 ≤ value) (hhigh : value < 2 ^ 63)
    (hfirst : Field.haToc.encode32 insn value = .ok word)
    (hother : TocWord second other (asU64 value) form) :
    { cpu with r := tocRegisters cpu x value }.next.address (bits other 16 5)
      (displacement form other) = ((cpu.r 2 + value) % 2 ^ 64).toNat := by
  rw [hother.base, hother.displaced, hbase, tocRegisters, Cpu.address, Cpu.base]
  by_cases hzero : haIsZero (asU64 value) = true
  · obtain ⟨hvlow, hvhigh⟩ := (haIsZero_iff hlow hhigh).mp hzero
    rw [if_pos hzero, if_pos hzero, if_neg (by decide), signExtend_lo hvlow hvhigh]
    rfl
  · have hfits := (ite_error_eq_ok.mp ((if_neg hzero).symm.trans hfirst)).1
    obtain ⟨hvlow, hvhigh⟩ := (fits_ha hlow hhigh).mp (Bool.not_eq_false _ ▸ hfits)
    rw [if_neg hzero, if_neg hzero, if_neg hx]
    show ((((Function.update cpu.r x _ x : ℕ) : ℤ) + _) % 2 ^ 64).toNat = _
    rw [Function.update_self, Cpu.address, Cpu.base, if_neg (by decide),
      Int.toNat_of_nonneg (Int.emod_nonneg _ (by decide)), Int.emod_add_emod, add_assoc,
      ha_lo hvlow hvhigh]

theorem computes_of_tocWord {second other rt : ℕ} (hx : x ≠ 0) (hbase : bits second 16 5 = x)
    (hopcode : bits second 26 6 = 14) (htarget : bits second 21 5 = rt)
    (hlow : -2 ^ 63 ≤ value) (hhigh : value < 2 ^ 63)
    (hfirst : Field.haToc.encode32 insn value = .ok word)
    (hother : TocWord second other (asU64 value) .d) :
    Computes big { cpu with r := tocRegisters cpu x value }.next other rt
      ((cpu.r 2 + value) % 2 ^ 64).toNat := by
  have hdecode := decode_eq_addi.mpr
    ⟨hother.opcode.trans hopcode, hother.target.trans htarget, rfl, rfl⟩
  rw [Computes, hdecode, ← toc_address hx hbase hlow hhigh hfirst hother]
  rfl

/-- **A pair comes to its address.** -/
theorem pairReaches {second : ℕ} (hx : x ≠ 0) (hinsn : decode insn = some (.addis x 2 si))
    (hbase : bits second 16 5 = x) (hsecond : second < 2 ^ 32) (hlow : -2 ^ 63 ≤ value)
    (hhigh : value < 2 ^ 63) : PairReaches big cpu x insn second value := by
  intro word hfirst
  refine ⟨tocRegisters cpu x value, exec_haToc hinsn hfirst, fun i hi => ?_, ?_, ?_, ?_⟩
  · rw [tocRegisters]
    split
    · rfl
    · exact Function.update_of_ne hi _ _
  · intro field form other hform hother
    have hword : TocWord second other (asU64 value) form := by
      cases field with
      | loToc => exact Option.some.inj hform ▸ tocWord_of_encodeLoToc hother
      | loDsToc => exact Option.some.inj hform ▸ tocWord_of_loDsToc hsecond hother
      | _ => cases hform
    exact ⟨hword.opcode, hword.target, hword.reserved,
      toc_address hx hbase hlow hhigh hfirst hword⟩
  · intro rt si other hdecode hother
    obtain ⟨hopcode, htarget, -, -⟩ := decode_eq_addi.mp hdecode
    exact computes_of_tocWord hx hbase hopcode htarget hlow hhigh hfirst
      (tocWord_of_encodeLoToc hother)
  · intro rt ds other hdecode hother
    obtain ⟨-, htarget, -, -⟩ := decode_eq_ld.mp hdecode
    have hother := tocWord_of_encodeLoToc (ite_error_eq_ok.mp hother).2
    refine computes_of_tocWord hx (Eq.trans ?_ hbase) ?_ (Eq.trans ?_ htarget) hlow hhigh hfirst
      hother
    · simp
    · simp
    · simp

end Pair

/-! ### Instructions that are not rewritten -/

/-- Anything but an `ld` is left alone. -/
def RejectsOthers (insn : ℕ) (value : ℤ) : Prop :=
  (∀ rt ra ds, decode insn ≠ some (.ld rt ra ds)) →
    Field.loDsToAddi.encode32 insn value = .error .badInstruction

/-- Another instruction with the opcode of `ld`: `ldu`, `lwa`. -/
def SharesOpcode (insn : ℕ) : Prop := bits insn 26 6 = 58 ∧ bits insn 0 2 ≠ 0

theorem isUpdateForm_addi (insn : ℕ) :
    isUpdateForm ((insn &&& 0x03ffffff) ||| 0x38000000) = false := by
  have hword : (insn &&& 0x03ffffff) ||| 0x38000000 < 2 ^ 32 :=
    Nat.or_lt_two_pow (Nat.and_lt_two_pow _ (by decide)) (by decide)
  have hopcode : primaryOpcode ((insn &&& 0x03ffffff) ||| 0x38000000) = 14 := by
    rw [primaryOpcode_eq hword]
    simp
  rw [isUpdateForm, hopcode]
  rfl

theorem loDsToAddi_ok {insn : ℕ} (value : ℤ) (hopcode : primaryOpcode insn = 58) :
    ∃ word, Field.loDsToAddi.encode32 insn value = .ok word := by
  have hencode : Field.loDsToAddi.encode32 insn value =
      encodeLoToc ((insn &&& 0x03ffffff) ||| 0x38000000) (asU64 value) :=
    if_neg (not_not.mpr hopcode)
  rw [hencode, encodeLoToc, isUpdateForm_addi]
  split
  · exact ⟨_, rfl⟩
  · exact ⟨_, rfl⟩

theorem rejectsOthers_iff {insn : ℕ} (value : ℤ) (hinsn : insn < 2 ^ 32) :
    RejectsOthers insn value ↔ ¬SharesOpcode insn := by
  constructor
  · rintro h ⟨hopcode, hlow⟩
    have hrejected := h fun rt ra ds hdecode => hlow (decode_eq_ld.mp hdecode).1.2
    obtain ⟨word, hword⟩ := loDsToAddi_ok value ((primaryOpcode_eq hinsn).trans hopcode)
    cases hrejected.symm.trans hword
  · intro h hother
    refine if_pos fun hopcode => ?_
    rw [primaryOpcode_eq hinsn] at hopcode
    by_cases hlow : bits insn 0 2 = 0
    · exact hother _ _ _ (decode_eq_ld.mpr ⟨⟨hopcode, hlow⟩, rfl, rfl, rfl⟩)
    · exact h ⟨hopcode, hlow⟩

/-! ### Thunks -/

/-- The instructions between the save and the padding. -/
def thunkBody (slot : Bool) (v : ℕ) : List ℕ :=
  [0x7d8802a6, 0x429f0005, 0x7d6802a6, 0x7d8803a6, 0x3d8b0000 ||| ha v,
    if slot then 0xe98c0000 ||| lo v else 0x398c0000 ||| lo v, MTCTR_R12, BCTR]

section Thunk

variable {big slot : Bool} {code : List ℕ} {start k v : ℕ} {cpu : Cpu}

theorem decode_high (v : ℕ) :
    decode (0x3d8b0000 ||| ha v) = some (.addis 12 11 (signExtend 16 (ha v))) := by
  refine decode_eq_addis.mpr ⟨by simp [ha], by simp [ha], by simp [ha], ?_⟩
  have hlow : bits (0x3d8b0000 ||| ha v) 0 16 = bits (ha v) 0 16 := by simp
  rw [displacement, hlow, bits_zero_of_lt (ha_lt v)]

theorem decode_lowAddi (v : ℕ) :
    decode (0x398c0000 ||| lo v) = some (.addi 12 12 (signExtend 16 (lo v))) := by
  refine decode_eq_addi.mpr ⟨by simp [lo], by simp [lo], by simp [lo], ?_⟩
  have hlow : bits (0x398c0000 ||| lo v) 0 16 = bits (lo v) 0 16 := by simp
  rw [displacement, hlow, bits_zero_of_lt (lo_lt v)]

theorem decode_lowLd (hmod : lo v % 4 = 0) :
    decode (0xe98c0000 ||| lo v) = some (.ld 12 12 (signExtend 16 (lo v))) := by
  have hlt := lo_lt v
  have hzero : bits (lo v) 0 2 = 0 := by
    rw [bits]
    omega
  have hsplit : bits (lo v) 2 14 * 4 = lo v := by
    rw [bits]
    omega
  have hupper (l w : ℕ) (h : 16 ≤ l) : bits (lo v) l w = 0 :=
    bits_eq_zero w (hlt.trans_le (Nat.pow_le_pow_right (by decide) h))
  refine decode_eq_ld.mpr ⟨⟨by simp [hupper], by simp [hzero]⟩, by simp [hupper],
    by simp [hupper], congrArg (signExtend 16) (Eq.trans ?_ hsplit)⟩
  simp

theorem decode_mflr12 : decode 0x7d8802a6 = some (.mfspr 12 LR) := by decide

theorem decode_bcl : decode 0x429f0005 = some (.bcl 4) := by decide

theorem decode_mflr11 : decode 0x7d6802a6 = some (.mfspr 11 LR) := by decide

theorem decode_mtlr12 : decode 0x7d8803a6 = some (.mtspr LR 12) := by decide

theorem decode_mtctr12 : decode MTCTR_R12 = some (.mtspr CTR 12) := by decide

theorem decode_bctr : decode BCTR = some .bctr := by decide

theorem decode_std : decode STD_R2_24_R1 = some (.std 2 1 24) := by decide

/-- The address that the body of a thunk makes up, where `r11` is. -/
def thunkAddress (anchor v : ℕ) : ℕ :=
  (((((anchor + signExtend 16 (ha v) * 2 ^ 16) % 2 ^ 64).toNat : ℕ) +
    signExtend 16 (lo v)) % 2 ^ 64).toNat

/-- What `r12` holds when the thunk leaves. -/
def thunkDestination (big slot : Bool) (mem : Memory) (address : ℕ) : ℕ :=
  if slot then load big mem address else address

variable {r : ℕ → ℕ} {lr ctr pc : ℕ} {mem : Memory}

/-- The instruction that adds the low part, or loads from there. -/
theorem decode_low (big : Bool) (hmod : slot = true → lo v % 4 = 0) :
    ∃ insn, decode (if slot then 0xe98c0000 ||| lo v else 0x398c0000 ||| lo v) = some insn ∧
      ∀ (r : ℕ → ℕ) lr ctr pc mem, exec big ⟨r, lr, ctr, pc, mem⟩ insn =
        some ⟨Function.update r 12 (thunkDestination big slot mem
          ((r 12 + signExtend 16 (lo v)) % 2 ^ 64).toNat), lr, ctr, (pc + 4) % 2 ^ 64, mem⟩ := by
  cases slot with
  | true => exact ⟨_, decode_lowLd (hmod rfl), fun _ _ _ _ _ => rfl⟩
  | false => exact ⟨_, decode_lowAddi v, fun _ _ _ _ _ => rfl⟩

/-- **The body of a thunk.** -/
theorem thunkBody_run (hk : k < 2) (hstart : start < 2 ^ 64)
    (hcode : ∀ i < 8, code[k + i]? = (thunkBody slot v)[i]?) (hmod : slot = true → lo v % 4 = 0)
    {destination : ℕ} (hdestination : destination =
      thunkDestination big slot mem (thunkAddress (codeAt start (k + 2)) v)) :
    run big code start 8 ⟨r, lr, ctr, codeAt start k, mem⟩ =
      some ⟨Function.update (Function.update r 11 (codeAt start (k + 2))) 12 destination, lr,
        destination, destination / 4 * 4, mem⟩ := by
  obtain ⟨low, hlow, hexec⟩ := decode_low big hmod
  have hanchor := codeAt_succ start (k + 1)
  generalize hr₁ : Function.update r 12 lr = r₁
  generalize hr₂ : Function.update r₁ 11 (codeAt start (k + 2)) = r₂
  generalize hhigh : ((codeAt start (k + 2) + signExtend 16 (ha v) * 2 ^ 16) % 2 ^ 64).toNat = high
  have hr₁_lr : r₁ 12 = lr := by rw [← hr₁, Function.update_self]
  have hr₂_lr : r₂ 12 = lr := by rw [← hr₂, Function.update_of_ne (by decide), hr₁_lr]
  have hr₂_anchor : r₂ 11 = codeAt start (k + 2) := by rw [← hr₂, Function.update_self]
  calc run big code start 8 ⟨r, lr, ctr, codeAt start k, mem⟩
      = run big code start 7 ⟨r₁, lr, ctr, codeAt start (k + 1), mem⟩ :=
        run_next (by omega) hstart (hcode 0 (by decide)) decode_mflr12 (hr₁ ▸ exec_mflr)
    _ = run big code start 6 ⟨r₁, codeAt start (k + 2), ctr, codeAt start (k + 2), mem⟩ :=
        run_next (by omega) hstart (hcode 1 (by decide)) decode_bcl (hanchor ▸ exec_bcl_next)
    _ = run big code start 5 ⟨r₂, codeAt start (k + 2), ctr, codeAt start (k + 3), mem⟩ :=
        run_next (by omega) hstart (hcode 2 (by decide)) decode_mflr11 (hr₂ ▸ exec_mflr)
    _ = run big code start 4 ⟨r₂, lr, ctr, codeAt start (k + 4), mem⟩ :=
        run_next (by omega) hstart (hcode 3 (by decide)) decode_mtlr12 (hr₂_lr ▸ exec_mtlr)
    _ = run big code start 3 ⟨Function.update r₂ 12 high, lr, ctr, codeAt start (k + 5), mem⟩ :=
        run_next (by omega) hstart (hcode 4 (by decide)) (decode_high v)
          (by rw [← hhigh, ← hr₂_anchor]; rfl)
    _ = run big code start 2 ⟨Function.update r₂ 12 destination, lr, ctr, codeAt start (k + 6),
          mem⟩ := by
        refine run_next (by omega) hstart (hcode 5 (by decide)) hlow ?_
        rw [hexec, Function.update_self, Function.update_idem, ← hhigh, hdestination]
        rfl
    _ = run big code start 1 ⟨Function.update r₂ 12 destination, lr, destination,
          codeAt start (k + 7), mem⟩ := by
        refine run_next (by omega) hstart (hcode 6 (by decide)) decode_mtctr12 ?_
        rw [exec_mtctr, Function.update_self]
    _ = some ⟨Function.update r₂ 12 destination, lr, destination, destination / 4 * 4, mem⟩ := by
        rw [run_succ rfl (by omega) hstart (hcode 7 (by decide)) decode_bctr]
        rfl
    _ = _ := by
        rw [← hr₂, ← hr₁, Function.update_comm (by decide : 12 ≠ 11), Function.update_idem]

/-- The address that the body makes up is that of the key. -/
theorem thunkAddress_eq {anchor target : ℕ} (htarget : target < 2 ^ 64)
    {offset : ℤ} (hoffset : offset = asI64 (asI64 target - asI64 anchor))
    (hfits : fitsSigned (wrappingAddI64 offset 0x8000) 32 = true) :
    thunkAddress anchor (asU64 offset) = target := by
  have hlow : -2 ^ 63 ≤ offset ∧ offset < 2 ^ 63 := by
    rw [hoffset, asI64]
    omega
  obtain ⟨hvlow, hvhigh⟩ := (fits_ha hlow.1 hlow.2).mp hfits
  rw [thunkAddress, Int.toNat_of_nonneg (Int.emod_nonneg _ (by decide)), Int.emod_add_emod,
    add_assoc, ha_lo hvlow hvhigh, hoffset, asI64, asI64, asI64]
  omega

/-- The memory after `r2` was saved, if it is. -/
def savedMemory (big : Bool) (cpu : Cpu) (key : ℕ) : Memory :=
  if key &&& THUNK_SAVE_TOC ≠ 0 then store big cpu.mem (cpu.address 1 24) (cpu.r 2) else cpu.mem

/-- A thunk goes to its destination, which it leaves in `r12`, and changes nothing else. -/
def ThunkReaches (big : Bool) (cpu : Cpu) (start key : ℕ) (words : List ℕ) : Prop :=
  ∃ n next, run big words start n cpu = some next ∧
    next.r 12 = thunkDestination big (key &&& THUNK_VIA_SLOT != 0) (savedMemory big cpu key)
      (key / 4 * 4) ∧
    next.pc = next.r 12 / 4 * 4 ∧ next.lr = cpu.lr ∧ next.mem = savedMemory big cpu key ∧
    ∀ i, i ≠ 11 → i ≠ 12 → next.r i = cpu.r i

variable {cpu : Cpu} {key : ℕ}

theorem thunkReaches_of_run {n destination : ℕ} (anchor : ℕ) (hrun : run big code start n cpu =
      some ⟨Function.update (Function.update cpu.r 11 anchor) 12 destination, cpu.lr, destination,
        destination / 4 * 4, savedMemory big cpu key⟩) (hdestination : destination =
      thunkDestination big (key &&& THUNK_VIA_SLOT != 0) (savedMemory big cpu key) (key / 4 * 4)) :
    ThunkReaches big cpu start key code := by
  have hr : Function.update (Function.update cpu.r 11 anchor) 12 destination 12 = destination :=
    Function.update_self _ _ _
  refine ⟨n, _, hrun, hr.trans hdestination, congrArg (· / 4 * 4) hr.symm, rfl, rfl,
    fun i h₁ h₂ => ?_⟩
  show Function.update (Function.update cpu.r 11 anchor) 12 destination i = cpu.r i
  rw [Function.update_of_ne h₂, Function.update_of_ne h₁]

/-- Where the body of a thunk starts. -/
def thunkStart (start key : ℕ) : ℕ :=
  if key &&& THUNK_SAVE_TOC != 0 then wrappingAdd start 4 else start

/-- How far the destination is from where the body knows its address. -/
def thunkOffset (start key : ℕ) : ℤ :=
  asI64 (asI64 (key / 4 * 4 : ℕ) - asI64 (wrappingAdd (thunkStart start key) 8 : ℕ))

theorem thunk_eq_ok {words : List ℕ} (h : thunk start key = .ok words) :
    fitsSigned (wrappingAddI64 (thunkOffset start key) 0x8000) 32 = true ∧
      ((key &&& THUNK_VIA_SLOT != 0) = true → asU64 (thunkOffset start key) &&& 3 = 0) ∧
        words = if key &&& THUNK_SAVE_TOC != 0 then
          STD_R2_24_R1 :: thunkBody (key &&& THUNK_VIA_SLOT != 0) (asU64 (thunkOffset start key))
        else thunkBody (key &&& THUNK_VIA_SLOT != 0) (asU64 (thunkOffset start key)) ++ [TRAP] := by
  have hoffset : asI64 (asI64 (key / 4 * 4 : ℕ) - asI64 (wrappingAdd
      (if key &&& THUNK_SAVE_TOC != 0 then wrappingAdd start 4 else start) 8 : ℕ)) =
        thunkOffset start key := rfl
  rw [thunk] at h
  simp only [hoffset, ite_error_eq_ok, Except.ok.injEq, Bool.not_eq_false] at h
  obtain ⟨hfits, hmisaligned, hwords⟩ := h
  refine ⟨hfits, fun hslot => ?_, hwords.symm.trans ?_⟩
  · exact by_contra fun hne => hmisaligned ⟨bne_iff_ne.mp hslot, hne⟩
  · simp only [thunkBody, bne_iff_ne]

/-- **A thunk goes to its destination.** -/
theorem thunk_run {words : List ℕ} (hstart : start < 2 ^ 64) (hkey : key < 2 ^ 64)
    (hpc : cpu.pc = start) (h : thunk start key = .ok words) :
    ThunkReaches big cpu start key words := by
  obtain ⟨hfits, halign, rfl⟩ := thunk_eq_ok h
  have hmod : (key &&& THUNK_VIA_SLOT != 0) = true →
      lo (asU64 (thunkOffset start key)) % 4 = 0 := by
    intro hslot
    have hlow := halign hslot
    rw [show 3 = 2 ^ 2 - 1 from rfl, Nat.and_two_pow_sub_one_eq_mod] at hlow
    rw [lo_eq]
    omega
  have haddress {anchor : ℕ} (hanchor : anchor = wrappingAdd (thunkStart start key) 8) :
      thunkAddress anchor (asU64 (thunkOffset start key)) = key / 4 * 4 :=
    thunkAddress_eq (by omega) (hanchor ▸ rfl) hfits
  have hcpu : cpu = ⟨cpu.r, cpu.lr, cpu.ctr, codeAt start 0, cpu.mem⟩ := by
    rw [codeAt, Nat.mul_zero, Nat.add_zero, Nat.mod_eq_of_lt hstart, ← hpc]
  by_cases hsave : (key &&& THUNK_SAVE_TOC != 0) = true
  · rw [if_pos hsave]
    have hsaved : savedMemory big cpu key = store big cpu.mem (cpu.address 1 24) (cpu.r 2) :=
      if_pos (bne_iff_ne.mp hsave)
    have hanchor : codeAt start 3 = wrappingAdd (thunkStart start key) 8 := by
      rw [thunkStart, if_pos hsave, codeAt, wrappingAdd, wrappingAdd]
      omega
    refine thunkReaches_of_run (n := 9) (codeAt start 3) ?_
      (congrArg (thunkDestination big _ (savedMemory big cpu key)) (haddress hanchor))
    have hfirst : run big (STD_R2_24_R1 :: thunkBody (key &&& THUNK_VIA_SLOT != 0)
        (asU64 (thunkOffset start key))) start 9 cpu =
          run big (STD_R2_24_R1 :: thunkBody (key &&& THUNK_VIA_SLOT != 0)
            (asU64 (thunkOffset start key))) start 8
              ⟨cpu.r, cpu.lr, cpu.ctr, codeAt start 1, savedMemory big cpu key⟩ := by
      rw [hsaved]
      conv_lhs => rw [hcpu]
      exact run_next (by decide) hstart rfl decode_std rfl
    refine hfirst.trans (thunkBody_run (k := 1) (by decide) hstart (fun i hi => ?_) hmod rfl)
    rw [Nat.add_comm]
    rfl
  · rw [if_neg hsave]
    have hsaved : savedMemory big cpu key = cpu.mem := if_neg fun hne => hsave (bne_iff_ne.mpr hne)
    have hanchor : codeAt start 2 = wrappingAdd (thunkStart start key) 8 := by
      rw [thunkStart, if_neg hsave, codeAt, wrappingAdd]
    refine thunkReaches_of_run (n := 8) (codeAt start 2) ?_
      (congrArg (thunkDestination big _ (savedMemory big cpu key)) (haddress hanchor))
    rw [hsaved]
    conv_lhs => rw [hcpu]
    refine thunkBody_run (k := 0) (by decide) hstart (fun i hi => ?_) hmod rfl
    rw [Nat.zero_add]
    exact List.getElem?_append_left hi

/-- A slot that is not where `r2` is saved keeps its doubleword. -/
theorem load_savedMemory {slot : ℕ} (hslot : Apart slot (cpu.address 1 24)) :
    load big (savedMemory big cpu key) slot = load big cpu.mem slot := by
  rw [savedMemory]
  split
  · refine load_store_of_apart _ ?_ hslot
    rw [Cpu.address]
    omega
  · rfl

end Thunk

/-- **Fields, pairs and thunks (proved).** -/
theorem fields_pairs_and_thunks (insn : ℕ) (value : ℤ) (big : Bool) (cpu : Cpu) :
    (∀ field : Field, field.checked = true → insn < 2 ^ (8 * field.bytes) →
      -2 ^ 63 ≤ value → value < 2 ^ 63 → (field.Lossless insn value ↔ ¬field.Truncates value)) ∧
    (insn < 2 ^ 32 → (RejectsOthers insn value ↔ ¬SharesOpcode insn)) ∧
    (∀ x second si, x ≠ 0 → decode insn = some (.addis x 2 si) →
      bits second 16 5 = x → second < 2 ^ 32 → -2 ^ 63 ≤ value → value < 2 ^ 63 →
        PairReaches big cpu x insn second value) ∧
    (∀ start key words, start < 2 ^ 64 → key < 2 ^ 64 → cpu.pc = start →
      thunk start key = .ok words → ThunkReaches big cpu start key words ∧
        (Apart (key / 4 * 4) (cpu.address 1 24) →
          load big (savedMemory big cpu key) (key / 4 * 4) = load big cpu.mem (key / 4 * 4))) :=
  ⟨fun _ hfield hinsn hlow hhigh => Field.lossless_iff hfield hinsn hlow hhigh,
    fun hinsn => rejectsOthers_iff value hinsn,
    fun _ _ _ hx hinsn hbase hsecond hlow hhigh =>
      pairReaches hx hinsn hbase hsecond hlow hhigh,
    fun _ _ _ hstart hkey hpc h => ⟨thunk_run hstart hkey hpc h, load_savedMemory⟩⟩

/-- A displacement, and a thunk that saves `r2`. -/
theorem ds_and_thunk_0x10000000 : Field.ds.Lossless 0xe8620001 0x7ff8 ∧
    ThunkReaches false ⟨fun _ => 0x2000, 0x4004, 0, 0x10000000, fun _ => 0⟩ 0x10000000 0x1234567a
      [0xf8410018, 0x7d8802a6, 0x429f0005, 0x7d6802a6, 0x7d8803a6, 0x3d8b0234, 0x398c566c,
        0x7d8903a6, 0x4e800420] := by
  obtain ⟨hfields, -, -, hthunks⟩ := fields_pairs_and_thunks 0xe8620001 0x7ff8 false
    ⟨fun _ => 0x2000, 0x4004, 0, 0x10000000, fun _ => 0⟩
  refine ⟨?_, ?_⟩
  · refine (hfields .ds rfl (by decide) (by decide) (by decide)).mpr fun h => ?_
    cases h.1
  · exact (hthunks 0x10000000 0x1234567a _ (by decide) (by decide) rfl (by decide)).1

/-- A `bca` to an address that does not fit, and an `lwa` in the place of an `ld`. -/
theorem addr14_truncates : Field.addr14.encode32 0x40000002 0x10000 = .ok 0x40000002 ∧
    ¬Field.addr14.Lossless 0x40000002 0x10000 ∧
    Field.loDsToAddi.encode32 0xe8640002 0x12340 = .ok 0x38642340 ∧
    ¬RejectsOthers 0xe8640002 0x12340 := by
  refine ⟨by decide, fun h => ?_, by decide, fun h => ?_⟩
  · exact lossless_addr14_iff.mp h ⟨rfl, by decide, by decide⟩
  · exact (rejectsOthers_iff _ (by decide)).mp h ⟨by decide, by decide⟩

end Qld.Arch.Ppc64
