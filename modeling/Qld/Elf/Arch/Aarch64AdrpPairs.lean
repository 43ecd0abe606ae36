import Qld.Elf.Arch.Aarch64AdrpWords
import Qld.Lib.Segments

/-!
# The pairs of an ADRP relaxation

Read off the contents and the relocations alone: which words may change, and what they must leave
in the register.

* `KeepsMeaning` — **the property**: the words that changed belong to rewritten pairs, each of which
  leaves its register as before, and the GOT accesses of a symbol are rewritten together;
* `GotPair`, `AddPair` — the pairs that the masks of the source accept;
* `Proper` — every pair to be rewritten is what its relocations say;
* `WordsApart` — no pair to be rewritten is overlapped in part by another one;
* `IsRewritten.apart` — then two pairs share no word;
* `Edited out edits cur` — the contents after some edits.
-/

namespace Qld.Elf.Arch

open Qld.Lib Qld.Lib.A64 Qld.Arch.Aarch64

variable (patched : List ℕ) (base : ℕ) (gotTarget : ℕ → Option UInt64) (relocs : List Relocation)
  (out : List UInt8)

/-! ### What the relaxation is for -/

/-- The words of a GOT access, `adrp xn; ldr xn, [xn, #imm]`, leave the address of the symbol. -/
def LoadsTarget (out' : List UInt8) (rel next : Relocation) : Prop :=
  kindOf patched rel = R_AARCH64_ADR_GOT_PAGE ∧ kindOf patched next = R_AARCH64_LD64_GOT_LO12_NC ∧
    ∃ n < 31, ∃ w₀ w₁ v₀ v₁ offset imm target,
      readInsn out rel.offset = some w₀ ∧ readInsn out next.offset = some w₁ ∧
      decode w₀ = some (.adrp n offset) ∧ decode w₁ = some (.ldr n n imm) ∧
      readInsn out' rel.offset = some v₀ ∧ readInsn out' next.offset = some v₁ ∧
      gotTarget rel.symbol = some target ∧
      Leaves v₀ v₁ (wrappingAdd base rel.offset) n target.toNat

/-- The words `adrp xn; add xn, xn, #imm` leave the address that they left before. -/
def LeavesSame (out' : List UInt8) (rel next : Relocation) : Prop :=
  kindOf patched rel = R_AARCH64_ADR_PREL_PG_HI21 ∧
    kindOf patched next = R_AARCH64_ADD_ABS_LO12_NC ∧
    ∃ n < 31, ∃ w₀ w₁ v₀ v₁ offset imm value,
      readInsn out rel.offset = some w₀ ∧ readInsn out next.offset = some w₁ ∧
      decode w₀ = some (.adrp n offset) ∧ decode w₁ = some (.addImm n n imm) ∧
      readInsn out' rel.offset = some v₀ ∧ readInsn out' next.offset = some v₁ ∧
      Leaves w₀ w₁ (wrappingAdd base rel.offset) n value ∧
      Leaves v₀ v₁ (wrappingAdd base rel.offset) n value

/-- Whether a relocation is half of a rewritten pair; a pair has the index of its first half. -/
def Covered (rewritten : Set ℕ) (i : ℕ) : Prop := i ∈ rewritten ∨ ∃ j ∈ rewritten, j + 1 = i

/-- A relocation that accesses the GOT.  At a patched offset it does no longer. -/
def IsGotAccess (rel : Relocation) : Prop :=
  kindOf patched rel = R_AARCH64_ADR_GOT_PAGE ∨ kindOf patched rel = R_AARCH64_LD64_GOT_LO12_NC

/-- The pairs in `rewritten` account for the change from `out` to `out'`. -/
structure Explains (out' : List UInt8) (rewritten : Set ℕ) : Prop where
  length_eq : out'.length = out.length
  others : ∀ k, (∀ i ∈ rewritten, ∀ rel, relocs[i]? = some rel →
    k < rel.offset ∨ rel.offset + 8 ≤ k) → out'[k]? = out[k]?
  pair : ∀ i ∈ rewritten, ∃ rel next, relocs[i]? = some rel ∧ relocs[i + 1]? = some next ∧
    next.offset = rel.offset + 4 ∧ rel.offset ∉ patched ∧ next.offset ∉ patched ∧
    (LoadsTarget patched base gotTarget out out' rel next ∨
      LeavesSame patched base out out' rel next)
  allOrNone : ∀ symbol,
    (∀ i rel, relocs[i]? = some rel → IsGotAccess patched rel → rel.symbol = symbol →
      Covered rewritten i) ∨
    ∀ i rel, relocs[i]? = some rel → IsGotAccess patched rel → rel.symbol = symbol →
      ¬Covered rewritten i

/-- The relaxed contents mean what the contents meant. -/
def KeepsMeaning (out' : List UInt8) : Prop :=
  ∃ rewritten, Explains patched base gotTarget relocs out out' rewritten

/-! ### The pairs that are rewritten -/

/-- A pair of relocations that the source takes for an `adrp; ldr` of a GOT entry. -/
def GotPair (i : ℕ) (rel next : Relocation) (target : ℕ) : Prop :=
  relocs[i]? = some rel ∧ relocs[i + 1]? = some next ∧
    kindOf patched rel = R_AARCH64_ADR_GOT_PAGE ∧
    gotPairTarget patched base gotTarget out rel next = some target

/-- A pair of relocations that the source takes for an `adrp; add` with a near address. -/
def AddPair (i : ℕ) (rel next : Relocation) (target : ℕ) : Prop :=
  relocs[i]? = some rel ∧ relocs[i + 1]? = some next ∧
    kindOf patched rel = R_AARCH64_ADR_PREL_PG_HI21 ∧
    kindOf patched next = R_AARCH64_ADD_ABS_LO12_NC ∧
    addPairTarget out base rel next = some target ∧
    InReach (wrappingAdd base rel.offset) target

/-- A GOT access that is no half of such a pair. -/
def Unpaired (i : ℕ) (rel : Relocation) : Prop :=
  (kindOf patched rel = R_AARCH64_ADR_GOT_PAGE ∧
    ∀ next target, ¬GotPair patched base gotTarget relocs out i rel next target) ∨
  (kindOf patched rel = R_AARCH64_LD64_GOT_LO12_NC ∧
    ∀ j prev target, j + 1 = i → ¬GotPair patched base gotTarget relocs out j prev rel target)

/-- Every GOT access of the symbol is half of such a pair. -/
def AllPaired (symbol : ℕ) : Prop :=
  ∀ i rel, relocs[i]? = some rel → rel.symbol = symbol →
    ¬Unpaired patched base gotTarget relocs out i rel

/-- The pairs to be rewritten are what their relocations say: the second word of a GOT pair is a
64-bit integer `ldr`, and no pair has register 31, which is `xzr` in one word and `sp` in the other. -/
structure Proper : Prop where
  got : ∀ i rel next target, GotPair patched base gotTarget relocs out i rel next target →
    AllPaired patched base gotTarget relocs out rel.symbol →
    ∃ word, readInsn out next.offset = some word ∧ bits word 22 10 = 0x3e5 ∧
      destinationRegister word ≠ 31
  add : ∀ i rel next target, AddPair patched base relocs out i rel next target →
    ∃ word, readInsn out next.offset = some word ∧ destinationRegister word ≠ 31

/-- A pair that is rewritten. -/
def IsRewritten (i : ℕ) (rel next : Relocation) : Prop :=
  (∃ target, AddPair patched base relocs out i rel next target) ∨
    ∃ target, GotPair patched base gotTarget relocs out i rel next target ∧
      AllPaired patched base gotTarget relocs out rel.symbol

/-- Neighbouring relocations of the types and offsets of a pair, over an `adrp` and a word of the
class that goes with it, a load or store or a 64-bit `add` of an immediate, with one register for
its base and its destination. -/
def PairWords (i : ℕ) (rel next : Relocation) : Prop :=
  relocs[i]? = some rel ∧ relocs[i + 1]? = some next ∧ next.offset = rel.offset + 4 ∧
    ∃ w₀ w₁, readInsn out rel.offset = some w₀ ∧ readInsn out next.offset = some w₁ ∧
      isAdrp w₀ = true ∧ destinationRegister w₁ = baseRegister w₁ ∧
      ((kindOf patched rel = R_AARCH64_ADR_GOT_PAGE ∧
          kindOf patched next = R_AARCH64_LD64_GOT_LO12_NC ∧ isLoadStoreUnsigned w₁ = true) ∨
        (kindOf patched rel = R_AARCH64_ADR_PREL_PG_HI21 ∧
          kindOf patched next = R_AARCH64_ADD_ABS_LO12_NC ∧ bits w₁ 23 9 = 0x122))

/-- No pair that is rewritten is overlapped in part by the words of another pair. -/
def WordsApart : Prop :=
  ∀ i rel next, IsRewritten patched base gotTarget relocs out i rel next →
    ∀ j rel' next', PairWords patched relocs out j rel' next' →
      rel'.offset ≤ next.offset ∨ next.offset + 4 ≤ rel'.offset

/-- Instructions on four-byte boundaries do not overlap in part. -/
theorem wordsApart_of_aligned {patched : List ℕ} {base : ℕ} {gotTarget : ℕ → Option UInt64}
    {relocs : List Relocation} {out : List UInt8} (h : ∀ r ∈ relocs, r.offset % 4 = 0) :
    WordsApart patched base gotTarget relocs out := by
  intro i rel next hrewritten j rel' next' hwords
  have hnext : relocs[i + 1]? = some next := by
    rcases hrewritten with ⟨_, hadd⟩ | ⟨_, hgot, -⟩
    · exact hadd.2.1
    · exact hgot.2.1
  have halign := h next (List.mem_of_getElem? hnext)
  have halign' := h rel' (List.mem_of_getElem? hwords.1)
  omega

/-! ### What the tests say -/

variable {patched base gotTarget relocs out}

variable {rel next : Relocation}

theorem kindOf_eq {kind : ℕ} (hpatched : patched.Pairwise (· ≤ ·)) (h : kindOf patched rel = kind)
    (hkind : kind ≠ R_AARCH64_JUMP26) :
    rel.rType = kind ∧ rel.offset ∉ patched := by
  rw [kindOf] at h
  split at h
  · exact absurd h.symm hkind
  · next hnot =>
    refine ⟨h, fun hmem => hnot ⟨List.ne_nil_of_mem hmem, ?_⟩⟩
    exact (binarySearch_iff (hpatched.imp Nat.compare_ne_gt.mpr)).mpr hmem

/-- The relocations of a pair. -/
def SameSymbol (rel next : Relocation) : Prop :=
  checkedAdd rel.offset 4 = some next.offset ∧ rel.symbol = next.symbol ∧ rel.addend = 0 ∧
    next.addend = 0

/-- What the words of a GOT pair pass. -/
def GotWords (w₀ w₁ : ℕ) : Prop :=
  isAdrp w₀ = true ∧ isLoadStoreUnsigned w₁ = true ∧ w₁ >>> 31 ≠ 0 ∧
    destinationRegister w₁ = destinationRegister w₀ ∧ baseRegister w₁ = destinationRegister w₀

/-- What the words of an `adrp; add` pass. -/
def AddWords (w₀ w₁ : ℕ) : Prop :=
  isAdrp w₀ = true ∧ isAddImm64 w₁ = true ∧ destinationRegister w₁ = destinationRegister w₀ ∧
    baseRegister w₁ = destinationRegister w₀

variable {target word i : ℕ}

theorem gotPairIsRelaxable_iff :
    gotPairIsRelaxable out base rel next target = true ↔ SameSymbol rel next ∧
      ∃ w₀ w₁, readInsn out rel.offset = some w₀ ∧ readInsn out next.offset = some w₁ ∧
        GotWords w₀ w₁ ∧
        fitsSigned (pagesBetween (wrappingAdd base rel.offset) target) 33 = true := by
  rw [gotPairIsRelaxable]
  split
  · next hnot =>
    refine ⟨fun h => (nomatch h), ?_⟩
    rintro ⟨⟨h₁, h₂, h₃, h₄⟩, -⟩
    simp only [h₁, h₂, h₃, h₄, ne_eq, not_true_eq_false, or_self] at hnot
  next hsame =>
  simp only [not_or, not_not] at hsame
  split
  · next w₀ w₁ h₀ h₁ =>
    rw [get_eq_ok] at h₀ h₁
    simp only [h₀, h₁, Option.some.injEq]
    split
    · next hnot =>
      refine ⟨fun h => (nomatch h), ?_⟩
      rintro ⟨-, _, _, rfl, rfl, ⟨ha, hb, hc, hd, he⟩, -⟩
      simp only [ha, hb, hc, hd, he, ne_eq, not_true_eq_false, or_self, reduceCtorEq] at hnot
    · next hwords =>
      simp only [not_or, not_not, Bool.not_eq_false] at hwords
      refine ⟨fun h => ⟨hsame, w₀, w₁, rfl, rfl, hwords, h⟩, ?_⟩
      rintro ⟨-, _, _, rfl, rfl, -, h⟩
      exact h
  · next hnot =>
    refine ⟨fun h => (nomatch h), ?_⟩
    rintro ⟨-, w₀, w₁, h₀, h₁, -⟩
    exact (hnot w₀ w₁ (get_eq_ok.mpr h₀) (get_eq_ok.mpr h₁)).elim

theorem addPairTarget_eq_some_iff :
    addPairTarget out base rel next = some target ↔ SameSymbol rel next ∧
      ∃ w₀ w₁, readInsn out rel.offset = some w₀ ∧ readInsn out next.offset = some w₁ ∧
        AddWords w₀ w₁ ∧
        wrappingAdd (asU64 (page (wrappingAdd base rel.offset) + adrpOffset w₀)) (addImmediate w₁) =
          target := by
  rw [addPairTarget]
  split
  · next hnot =>
    refine ⟨fun h => (nomatch h), ?_⟩
    rintro ⟨⟨h₁, h₂, h₃, h₄⟩, -⟩
    simp only [h₁, h₂, h₃, h₄, ne_eq, not_true_eq_false, or_self] at hnot
  next hsame =>
  simp only [not_or, not_not] at hsame
  split
  · next w₀ w₁ h₀ h₁ =>
    rw [get_eq_ok] at h₀ h₁
    simp only [h₀, h₁, Option.some.injEq]
    split
    · next hnot =>
      refine ⟨fun h => (nomatch h), ?_⟩
      rintro ⟨-, _, _, rfl, rfl, ⟨ha, hb, hc, hd⟩, -⟩
      simp only [ha, hb, hc, hd, ne_eq, not_true_eq_false, or_self, reduceCtorEq] at hnot
    · next hwords =>
      simp only [not_or, not_not, Bool.not_eq_false] at hwords
      rw [Option.some.injEq]
      refine ⟨fun h => ⟨hsame, w₀, w₁, rfl, rfl, hwords, h⟩, ?_⟩
      rintro ⟨-, _, _, rfl, rfl, -, h⟩
      exact h
  · next hnot =>
    refine ⟨fun h => (nomatch h), ?_⟩
    rintro ⟨-, w₀, w₁, h₀, h₁, -⟩
    exact (hnot w₀ w₁ (get_eq_ok.mpr h₀) (get_eq_ok.mpr h₁)).elim

theorem gotPairTarget_eq_some_iff :
    gotPairTarget patched base gotTarget out rel next = some target ↔
      kindOf patched next = R_AARCH64_LD64_GOT_LO12_NC ∧
        (∃ value, gotTarget rel.symbol = some value ∧ value.toNat = target) ∧
        gotPairIsRelaxable out base rel next target = true := by
  rw [gotPairTarget, Option.ite_none_right_eq_some, Option.bind_eq_some_iff]
  refine and_congr_right fun _ => ⟨?_, ?_⟩
  · rintro ⟨value, hvalue, h⟩
    obtain ⟨hrelaxable, hsome⟩ := Option.ite_none_right_eq_some.mp h
    obtain rfl := Option.some.inj hsome
    exact ⟨⟨value, hvalue, rfl⟩, hrelaxable⟩
  · rintro ⟨⟨value, hvalue, rfl⟩, h⟩
    exact ⟨value, hvalue, by rw [if_pos h]⟩

variable {cur : List UInt8}

theorem gotPairTarget_congr (h₀ : readInsn cur rel.offset = readInsn out rel.offset)
    (h₁ : readInsn cur next.offset = readInsn out next.offset) :
    gotPairTarget patched base gotTarget cur rel next =
      gotPairTarget patched base gotTarget out rel next := by
  refine Option.ext fun target => ?_
  rw [gotPairTarget_eq_some_iff, gotPairTarget_eq_some_iff, gotPairIsRelaxable_iff,
    gotPairIsRelaxable_iff, h₀, h₁]

theorem addPairTarget_congr (h₀ : readInsn cur rel.offset = readInsn out rel.offset)
    (h₁ : readInsn cur next.offset = readInsn out next.offset) :
    addPairTarget cur base rel next = addPairTarget out base rel next := by
  refine Option.ext fun target => ?_
  rw [addPairTarget_eq_some_iff, addPairTarget_eq_some_iff, h₀, h₁]

/-! ### Candidates -/

theorem not_isAdrp_of_loadStore (h : isLoadStoreUnsigned word = true) :
    isAdrp word = false := by
  rw [isLoadStoreUnsigned_iff] at h
  rw [Bool.eq_false_iff, Ne, isAdrp_iff]
  simp only [bits] at h ⊢
  omega

theorem not_isAdrp_of_add (h : bits word 23 9 = 0x122) : isAdrp word = false := by
  rw [Bool.eq_false_iff, Ne, isAdrp_iff]
  simp only [bits] at h ⊢
  omega

theorem bits_of_isAddImm64 (h : isAddImm64 word = true) : bits word 23 9 = 0x122 := by
  rw [isAddImm64_iff] at h
  simp only [bits] at h ⊢
  omega

variable (patched relocs out) in
/-- What the two kinds of pairs have in common. -/
structure Candidate (i : ℕ) (rel next : Relocation) (w₀ w₁ : ℕ) : Prop where
  rel_eq : relocs[i]? = some rel
  next_eq : relocs[i + 1]? = some next
  offset_eq : next.offset = rel.offset + 4
  offset_lt : rel.offset + 4 < 2 ^ 64
  first : readInsn out rel.offset = some w₀
  second : readInsn out next.offset = some w₁
  adrp : isAdrp w₀ = true
  notAdrp : isAdrp w₁ = false
  rel_kind : kindOf patched rel = R_AARCH64_ADR_GOT_PAGE ∨
    kindOf patched rel = R_AARCH64_ADR_PREL_PG_HI21
  next_kind : kindOf patched next = R_AARCH64_LD64_GOT_LO12_NC ∨
    kindOf patched next = R_AARCH64_ADD_ABS_LO12_NC

theorem GotPair.candidate (h : GotPair patched base gotTarget relocs out i rel next target) :
    ∃ w₀ w₁, Candidate patched relocs out i rel next w₀ w₁ ∧ GotWords w₀ w₁ ∧
      fitsSigned (pagesBetween (wrappingAdd base rel.offset) target) 33 = true ∧
      ∃ value, gotTarget rel.symbol = some value ∧ value.toNat = target := by
  obtain ⟨hrel, hnext, hkind, htarget⟩ := h
  obtain ⟨hkind', hvalue, hrelaxable⟩ := gotPairTarget_eq_some_iff.mp htarget
  obtain ⟨hsame, w₀, w₁, h₀, h₁, hwords, hfits⟩ := gotPairIsRelaxable_iff.mp hrelaxable
  obtain ⟨hoffset, hlt⟩ := checkedAdd_eq_some hsame.1
  exact ⟨w₀, w₁, ⟨hrel, hnext, hoffset, hlt, h₀, h₁, hwords.1, not_isAdrp_of_loadStore hwords.2.1,
    .inl hkind, .inl hkind'⟩, hwords, hfits, hvalue⟩

theorem AddPair.candidate (h : AddPair patched base relocs out i rel next target) :
    ∃ w₀ w₁, Candidate patched relocs out i rel next w₀ w₁ ∧ AddWords w₀ w₁ ∧
      wrappingAdd (asU64 (page (wrappingAdd base rel.offset) + adrpOffset w₀)) (addImmediate w₁) =
        target := by
  obtain ⟨hrel, hnext, hkind, hkind', htarget, -⟩ := h
  obtain ⟨hsame, w₀, w₁, h₀, h₁, hwords, hvalue⟩ := addPairTarget_eq_some_iff.mp htarget
  obtain ⟨hoffset, hlt⟩ := checkedAdd_eq_some hsame.1
  exact ⟨w₀, w₁, ⟨hrel, hnext, hoffset, hlt, h₀, h₁, hwords.1,
    not_isAdrp_of_add (bits_of_isAddImm64 hwords.2.1), .inr hkind, .inr hkind'⟩, hwords, hvalue⟩

theorem Candidate.unpatched (hpatched : patched.Pairwise (· ≤ ·)) {w₀ w₁ : ℕ}
    (h : Candidate patched relocs out i rel next w₀ w₁) :
    rel.offset ∉ patched ∧ next.offset ∉ patched := by
  refine ⟨?_, ?_⟩
  · rcases h.rel_kind with hrel | hrel <;> exact (kindOf_eq hpatched hrel (by decide)).2
  · rcases h.next_kind with hnext | hnext <;> exact (kindOf_eq hpatched hnext (by decide)).2

theorem GotPair.pairWords (h : GotPair patched base gotTarget relocs out i rel next target) :
    PairWords patched relocs out i rel next := by
  obtain ⟨w₀, w₁, hc, hwords, -⟩ := h.candidate
  exact ⟨hc.rel_eq, hc.next_eq, hc.offset_eq, w₀, w₁, hc.first, hc.second, hc.adrp,
    hwords.2.2.2.1.trans hwords.2.2.2.2.symm, .inl ⟨h.2.2.1, (gotPairTarget_eq_some_iff.mp h.2.2.2).1, hwords.2.1⟩⟩

theorem AddPair.pairWords (h : AddPair patched base relocs out i rel next target) :
    PairWords patched relocs out i rel next := by
  obtain ⟨w₀, w₁, hc, hwords, -⟩ := h.candidate
  exact ⟨hc.rel_eq, hc.next_eq, hc.offset_eq, w₀, w₁, hc.first, hc.second, hc.adrp,
    hwords.2.2.1.trans hwords.2.2.2.symm, .inr ⟨h.2.2.1, h.2.2.2.1, bits_of_isAddImm64 hwords.2.1⟩⟩

theorem IsRewritten.candidate (h : IsRewritten patched base gotTarget relocs out i rel next) :
    ∃ w₀ w₁, Candidate patched relocs out i rel next w₀ w₁ := by
  rcases h with ⟨target, hadd⟩ | ⟨target, hgot, -⟩
  · obtain ⟨w₀, w₁, hc, -⟩ := hadd.candidate
    exact ⟨w₀, w₁, hc⟩
  · obtain ⟨w₀, w₁, hc, -⟩ := hgot.candidate
    exact ⟨w₀, w₁, hc⟩

/-- A later relocation is not before the second word of a pair. -/
theorem Candidate.later (hsorted : relocs.Pairwise fun a b => a.offset ≤ b.offset) {j w₀ w₁ : ℕ}
    {rel' : Relocation} (h : Candidate patched relocs out i rel next w₀ w₁) (hlt : i + 1 < j)
    (hrel : relocs[j]? = some rel') : next.offset ≤ rel'.offset := by
  obtain ⟨hj, rfl⟩ := List.getElem?_eq_some_iff.mp hrel
  obtain ⟨hi, hnext⟩ := List.getElem?_eq_some_iff.mp h.next_eq
  have hle := List.pairwise_iff_getElem.mp hsorted _ _ hi hj hlt
  rwa [hnext] at hle

/-- **A rewritten pair and a later one are apart.** -/
theorem IsRewritten.apart (hsorted : relocs.Pairwise fun a b => a.offset ≤ b.offset)
    (hapart : WordsApart patched base gotTarget relocs out) {j : ℕ} {rel' next' : Relocation}
    (h : IsRewritten patched base gotTarget relocs out i rel next)
    (h' : PairWords patched relocs out j rel' next') (hlt : i < j) :
    rel.offset + 8 ≤ rel'.offset := by
  obtain ⟨w₀, w₁, hc⟩ := h.candidate
  have hclear := hapart i rel next h j rel' next' h'
  obtain ⟨hrel', -, -, v₀, v₁, hfirst, -, hadrp, -, hkinds⟩ := h'
  have hne : i + 1 ≠ j := by
    rintro rfl
    obtain rfl := Option.some.inj (hc.next_eq.symm.trans hrel')
    rcases hc.next_kind with hk | hk <;> rcases hkinds with ⟨hk', -⟩ | ⟨hk', -⟩ <;>
      exact absurd (hk.symm.trans hk') (by decide)
  have hlater := hc.later hsorted (by omega) hrel'
  have hoffset := hc.offset_eq
  rcases hclear with hle | hle
  · -- At the second word itself there is no `adrp`.
    rw [Nat.le_antisymm hle hlater, hc.second] at hfirst
    have hnot := hc.notAdrp
    rw [Option.some.inj hfirst, hadrp] at hnot
    exact nomatch hnot
  · omega

/-! ### Edited contents -/

/-- Two words stored at an offset. -/
structure Edit where
  offset : ℕ
  first : ℕ
  second : ℕ

/-- The contents after some edits. -/
structure Edited (out : List UInt8) (edits : List Edit) (cur : List UInt8) : Prop where
  length_eq : cur.length = out.length
  words : ∀ e ∈ edits, readInsn cur e.offset = some e.first ∧
    readInsn cur (e.offset + 4) = some e.second
  others : ∀ k, (∀ e ∈ edits, k < e.offset ∨ e.offset + 8 ≤ k) → cur[k]? = out[k]?

theorem readInsn_congr (at_ : ℕ) (hlen : cur.length = out.length)
    (h : ∀ k, at_ ≤ k → k < at_ + 4 → cur[k]? = out[k]?) :
    readInsn cur at_ = readInsn out at_ := by
  have hbytes : (cur.drop at_).take 4 = (out.drop at_).take 4 := by
    apply List.ext_getElem?
    intro k
    rw [List.getElem?_take, List.getElem?_take, List.getElem?_drop, List.getElem?_drop]
    split
    · exact h _ (by omega) (by omega)
    · rfl
  rw [readInsn, readInsn, readLe, readLe, hlen, hbytes]

/-- The fourth byte of a word decides whether it is an `adrp`. -/
theorem isAdrp_congr {at_ w w' : ℕ} (h : cur[at_ + 3]? = out[at_ + 3]?)
    (hw : readInsn cur at_ = some w) (hw' : readInsn out at_ = some w') : isAdrp w = isAdrp w' := by
  have hhigh : ∀ {data : List UInt8} {w : ℕ}, readInsn data at_ = some w →
      ∃ b : UInt8, data[at_ + 3]? = some b ∧ w / 2 ^ 24 = b.toNat := by
    intro data w hread
    have hlen := add_le_of_readInsn hread
    have hvalue : w = leValue ((data.drop at_).take 4) := by
      rw [readInsn, readLe, if_pos hlen] at hread
      exact (Option.some.inj hread).symm
    have hget : data[at_ + 3]? = ((data.drop at_).take 4)[3]? := by
      rw [List.getElem?_take, List.getElem?_drop, if_pos (by decide)]
    have hfour : ((data.drop at_).take 4).length = 4 := by
      rw [List.length_take, List.length_drop]
      omega
    rw [hget, hvalue]
    obtain ⟨a, b, c, d, hbytes⟩ := List.length_eq_four.mp hfour
    rw [hbytes]
    refine ⟨d, rfl, ?_⟩
    have ha := a.toNat_lt
    have hb := b.toNat_lt
    have hc := c.toNat_lt
    simp only [leValue]
    omega
  obtain ⟨b, hb, hwb⟩ := hhigh hw
  obtain ⟨b', hb', hwb'⟩ := hhigh hw'
  rw [hb, hb', Option.some.injEq] at h
  rw [Bool.eq_iff_iff, isAdrp_iff, isAdrp_iff]
  simp only [bits]
  rw [h] at hwb
  omega

theorem Edited.readInsn_of_apart {edits : List Edit} (h : Edited out edits cur) {at_ : ℕ}
    (hapart : ∀ e ∈ edits, at_ + 4 ≤ e.offset ∨ e.offset + 8 ≤ at_) :
    readInsn cur at_ = readInsn out at_ :=
  readInsn_congr at_ h.length_eq fun k hk hk' =>
    h.others k fun e he => by have := hapart e he; omega

theorem Edited.cons {edits : List Edit} {cur cur' : List UInt8} {e : Edit}
    (h : Edited out edits cur) (hrewrites : Rewrites cur e.offset e.first e.second cur')
    (hapart : ∀ e' ∈ edits, e.offset + 8 ≤ e'.offset ∨ e'.offset + 8 ≤ e.offset) :
    Edited out (e :: edits) cur' := by
  refine ⟨hrewrites.length_eq.trans h.length_eq, fun e' he' => ?_, fun k hk => ?_⟩
  · rcases List.mem_cons.mp he' with rfl | he'
    · exact ⟨hrewrites.first, hrewrites.second⟩
    · have hout := hapart e' he'
      obtain ⟨hfirst, hsecond⟩ := h.words e' he'
      rw [readInsn_congr _ hrewrites.length_eq fun k _ _ => hrewrites.others k (by omega),
        readInsn_congr _ hrewrites.length_eq fun k _ _ => hrewrites.others k (by omega)]
      exact ⟨hfirst, hsecond⟩
  · rw [hrewrites.others k (hk e List.mem_cons_self)]
    exact h.others k fun e' he' => hk e' (List.mem_cons_of_mem _ he')

end Qld.Elf.Arch
