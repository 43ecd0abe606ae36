import Qld.Elf.Arch.Aarch64AdrpPairs

/-!
# ADRP relaxation keeps what the code computes

* `ScanInv` — what the first pass knows after some relocations;
* `scanStep_spec`, `scan_spec` — one relocation, and all of them;
* `rewritePairs_spec` — the second pass;
* `relaxAdrpPairs_keepsMeaning_iff` — the relaxation keeps the meaning of the code exactly
  when every pair to be rewritten is what its relocations say.
-/

namespace Qld.Elf.Arch

open Qld.Lib Qld.Lib.A64 Qld.Arch.Aarch64

variable (patched : List ℕ) (base : ℕ) (gotTarget : ℕ → Option UInt64) (relocs : List Relocation)
  (out : List UInt8)

/-! ### The first pass -/

/-- The edit of an `adrp; add` pair. -/
def AddEdit (i : ℕ) (e : Edit) : Prop :=
  ∃ rel next target w₀, AddPair patched base relocs out i rel next target ∧
    e.offset = rel.offset ∧ e.first = NOP ∧ readInsn out rel.offset = some w₀ ∧
    decode e.second =
      some (.adr (destinationRegister w₀) (adrDelta (wrappingAdd base rel.offset) target))

/-- What the first pass knows after `i` relocations. -/
structure ScanInv (i : ℕ) (s : Scan) : Prop where
  edits : ∃ edits, Edited out edits s.out ∧
    (∀ e ∈ edits, ∃ j < i, AddEdit patched base relocs out j e) ∧
    ∀ j < i, ∀ rel next target, AddPair patched base relocs out j rel next target →
      ∃ e ∈ edits, AddEdit patched base relocs out j e
  pairs : ∀ p, p ∈ s.pairs ↔
    ∃ j < i, ∃ next, GotPair patched base gotTarget relocs out j p.1 next p.2
  pairs_apart : s.pairs.Pairwise fun p q =>
    AllPaired patched base gotTarget relocs out p.1.symbol → p.1.offset + 8 ≤ q.1.offset
  unrelaxable : ∀ symbol, symbol ∈ s.unrelaxable ↔ ∃ j < i, ∃ rel, relocs[j]? = some rel ∧
    rel.symbol = symbol ∧ Unpaired patched base gotTarget relocs out j rel

/-- Relocation `i` starts no pair. -/
structure NoPair (i : ℕ) : Prop where
  got : ∀ rel next target, ¬GotPair patched base gotTarget relocs out i rel next target
  add : ∀ rel next target, ¬AddPair patched base relocs out i rel next target

/-- What a step of the pass does; when it takes the next relocation too, that one is settled. -/
structure StepOk (i : ℕ) (r : Scan × Bool) : Prop where
  inv : ScanInv patched base gotTarget relocs out (i + 1) r.1
  stays : r.2 = false → NoPair patched base gotTarget relocs out i
  taken : r.2 = true → NoPair patched base gotTarget relocs out (i + 1) ∧
    ∀ rel, relocs[i + 1]? = some rel → ¬Unpaired patched base gotTarget relocs out (i + 1) rel

variable {patched base gotTarget relocs out}

variable {i target : ℕ}

theorem exists_lt_succ {p : ℕ → Prop} : (∃ j < i + 1, p j) ↔ (∃ j < i, p j) ∨ p i := by
  constructor
  · rintro ⟨j, hj, h⟩
    rcases Nat.lt_succ_iff_lt_or_eq.mp hj with hlt | rfl
    · exact .inl ⟨j, hlt, h⟩
    · exact .inr h
  · rintro (⟨j, hj, h⟩ | h)
    · exact ⟨j, by omega, h⟩
    · exact ⟨i, by omega, h⟩

variable {s : Scan}

theorem ScanInv.edits_succ (h : ScanInv patched base gotTarget relocs out i s)
    (hnone : ∀ rel next target, ¬AddPair patched base relocs out i rel next target) :
    ∃ edits, Edited out edits s.out ∧
      (∀ e ∈ edits, ∃ j < i + 1, AddEdit patched base relocs out j e) ∧
      ∀ j < i + 1, ∀ rel next target, AddPair patched base relocs out j rel next target →
        ∃ e ∈ edits, AddEdit patched base relocs out j e := by
  obtain ⟨edits, hedited, hfrom, hto⟩ := h.edits
  refine ⟨edits, hedited, fun e he => exists_lt_succ.mpr (.inl (hfrom e he)), ?_⟩
  intro j hj rel next target hpair
  rcases Nat.lt_succ_iff_lt_or_eq.mp hj with hlt | rfl
  · exact hto j hlt rel next target hpair
  · exact absurd hpair (hnone rel next target)

theorem ScanInv.pairs_succ (h : ScanInv patched base gotTarget relocs out i s)
    (hnone : ∀ rel next target, ¬GotPair patched base gotTarget relocs out i rel next target)
    (p : Relocation × ℕ) : p ∈ s.pairs ↔
      ∃ j < i + 1, ∃ next, GotPair patched base gotTarget relocs out j p.1 next p.2 := by
  rw [exists_lt_succ, h.pairs, or_iff_left]
  rintro ⟨next, hpair⟩
  exact hnone _ _ _ hpair

theorem ScanInv.skip (h : ScanInv patched base gotTarget relocs out i s)
    (hnone : NoPair patched base gotTarget relocs out i)
    (hpaired : ∀ rel, relocs[i]? = some rel → ¬Unpaired patched base gotTarget relocs out i rel) :
    ScanInv patched base gotTarget relocs out (i + 1) s := by
  refine ⟨h.edits_succ hnone.add, h.pairs_succ hnone.got, h.pairs_apart, fun symbol => ?_⟩
  rw [exists_lt_succ, h.unrelaxable, or_iff_left]
  rintro ⟨rel, hrel, -, hunpaired⟩
  exact hpaired rel hrel hunpaired

variable {rel next : Relocation}

theorem ScanInv.unpaired (h : ScanInv patched base gotTarget relocs out i s)
    (hnone : NoPair patched base gotTarget relocs out i) (hrel : relocs[i]? = some rel)
    (hunpaired : Unpaired patched base gotTarget relocs out i rel) :
    ScanInv patched base gotTarget relocs out (i + 1)
      { s with unrelaxable := s.unrelaxable ++ [rel.symbol] } := by
  refine ⟨h.edits_succ hnone.add, h.pairs_succ hnone.got, h.pairs_apart, fun symbol => ?_⟩
  rw [exists_lt_succ, List.mem_append, h.unrelaxable, List.mem_singleton]
  refine or_congr_right ⟨?_, ?_⟩
  · rintro rfl
    exact ⟨rel, hrel, rfl, hunpaired⟩
  · rintro ⟨rel', hrel', rfl, -⟩
    rw [Option.some.inj (hrel.symm.trans hrel')]

theorem GotPair.eq {rel' next' : Relocation} {target' : ℕ}
    (h : GotPair patched base gotTarget relocs out i rel next target)
    (h' : GotPair patched base gotTarget relocs out i rel' next' target') :
    rel' = rel ∧ target' = target := by
  obtain ⟨hrel, hnext, -, htarget⟩ := h
  obtain ⟨hrel', hnext', -, htarget'⟩ := h'
  obtain rfl := Option.some.inj (hrel.symm.trans hrel')
  obtain rfl := Option.some.inj (hnext.symm.trans hnext')
  exact ⟨rfl, Option.some.inj (htarget'.symm.trans htarget)⟩

theorem Candidate.noPair {w₀ w₁ : ℕ} (h : Candidate patched relocs out i rel next w₀ w₁) :
    NoPair patched base gotTarget relocs out (i + 1) := by
  have hnot : ∀ rel', relocs[i + 1]? = some rel' →
      kindOf patched rel' ≠ R_AARCH64_ADR_GOT_PAGE ∧
        kindOf patched rel' ≠ R_AARCH64_ADR_PREL_PG_HI21 := by
    intro rel' hrel'
    obtain rfl := Option.some.inj (h.next_eq.symm.trans hrel')
    rcases h.next_kind with hk | hk <;> rw [hk] <;> decide
  exact ⟨fun rel' _ _ hpair => (hnot rel' hpair.1).1 hpair.2.2.1,
    fun rel' _ _ hpair => (hnot rel' hpair.1).2 hpair.2.2.1⟩

section Sorted

variable (hsorted : relocs.Pairwise fun a b => a.offset ≤ b.offset)
  (hapart : WordsApart patched base gotTarget relocs out)

include hsorted hapart

variable {i : ℕ} {s : Scan} {rel : Relocation}

section

variable (h : ScanInv patched base gotTarget relocs out i s)

include h

theorem ScanInv.got {next : Relocation} {target : ℕ}
    (hpair : GotPair patched base gotTarget relocs out i rel next target) :
    ScanInv patched base gotTarget relocs out (i + 1)
      { s with pairs := s.pairs ++ [(rel, target)] } := by
  have hkind := hpair.2.2.1
  have hsame : ∀ {rel'}, relocs[i]? = some rel' → rel' = rel := fun hrel' =>
    Option.some.inj (hrel'.symm.trans hpair.1)
  refine ⟨h.edits_succ ?_, fun p => ?_, List.pairwise_append.mpr ⟨h.pairs_apart,
    List.pairwise_singleton _ _, ?_⟩, fun symbol => ?_⟩
  · intro rel' _ _ hadd
    have hkind' := hadd.2.2.1
    rw [hsame hadd.1, hkind] at hkind'
    exact absurd hkind' (by decide)
  · rw [exists_lt_succ, List.mem_append, h.pairs, List.mem_singleton]
    refine or_congr_right ⟨?_, ?_⟩
    · rintro rfl
      exact ⟨next, hpair⟩
    · rintro ⟨next', hpair'⟩
      obtain ⟨hrel, htarget⟩ := hpair.eq hpair'
      exact Prod.ext hrel htarget
  · intro p hp q hq hall
    obtain rfl := List.mem_singleton.mp hq
    obtain ⟨j, hj, next', hpair'⟩ := (h.pairs p).mp hp
    have hrewritten : IsRewritten patched base gotTarget relocs out j p.1 next' :=
      .inr ⟨p.2, hpair', hall⟩
    exact hrewritten.apart hsorted hapart hpair.pairWords hj
  · rw [exists_lt_succ, h.unrelaxable, or_iff_left]
    rintro ⟨rel', hrel', -, hunpaired⟩
    rw [hsame hrel'] at hunpaired
    rcases hunpaired with ⟨-, hnot⟩ | ⟨hkind', -⟩
    · exact hnot next target hpair
    · exact absurd (hkind.symm.trans hkind') (by decide)

theorem ScanInv.add {next : Relocation} {target w₀ v₁ : ℕ} {out' : List UInt8}
    (hpair : AddPair patched base relocs out i rel next target)
    (hfirst : readInsn out rel.offset = some w₀) (hrewrites : Rewrites s.out rel.offset NOP v₁ out')
    (hdecode : decode v₁ =
      some (.adr (destinationRegister w₀) (adrDelta (wrappingAdd base rel.offset) target))) :
    ScanInv patched base gotTarget relocs out (i + 1) { s with out := out' } := by
  have hkind := hpair.2.2.1
  have hsame : ∀ {rel'}, relocs[i]? = some rel' → rel' = rel := fun hrel' =>
    Option.some.inj (hrel'.symm.trans hpair.1)
  have hedit : AddEdit patched base relocs out i ⟨rel.offset, NOP, v₁⟩ :=
    ⟨rel, next, target, w₀, hpair, rfl, rfl, hfirst, hdecode⟩
  refine ⟨?_, h.pairs_succ ?_, h.pairs_apart, fun symbol => ?_⟩
  · obtain ⟨edits, hedited, hfrom, hto⟩ := h.edits
    refine ⟨⟨rel.offset, NOP, v₁⟩ :: edits, hedited.cons hrewrites fun e he => ?_, ?_, ?_⟩
    · obtain ⟨j, hj, rel', next', target', _, hpair', hoffset, -⟩ := hfrom e he
      have hrewritten : IsRewritten patched base gotTarget relocs out j rel' next' :=
        .inl ⟨target', hpair'⟩
      rw [hoffset]
      exact .inr (hrewritten.apart hsorted hapart hpair.pairWords hj)
    · intro e he
      rcases List.mem_cons.mp he with rfl | he
      · exact ⟨i, by omega, hedit⟩
      · exact exists_lt_succ.mpr (.inl (hfrom e he))
    · intro j hj rel' next' target' hpair'
      rcases Nat.lt_succ_iff_lt_or_eq.mp hj with hlt | rfl
      · obtain ⟨e, he, hadd⟩ := hto j hlt rel' next' target' hpair'
        exact ⟨e, List.mem_cons_of_mem _ he, hadd⟩
      · exact ⟨_, List.mem_cons_self, hedit⟩
  · intro rel' _ _ hgot
    have hkind' := hgot.2.2.1
    rw [hsame hgot.1, hkind] at hkind'
    exact absurd hkind' (by decide)
  · rw [exists_lt_succ, h.unrelaxable, or_iff_left]
    rintro ⟨rel', hrel', -, hunpaired⟩
    rw [hsame hrel'] at hunpaired
    rcases hunpaired with ⟨hkind', -⟩ | ⟨hkind', -⟩ <;>
      exact absurd (hkind.symm.trans hkind') (by decide)

/-- The pass reads the second word of a pair as it was, and in the place of the first one an `adrp`
exactly where there was one; where both are of the classes that the masks accept, it reads the first
one as it was too. -/
theorem ScanInv.words (hfree : ∀ j, j + 1 = i → NoPair patched base gotTarget relocs out j)
    (hrel : relocs[i]? = some rel) :
    readInsn s.out (rel.offset + 4) = readInsn out (rel.offset + 4) ∧
      (∀ w, readInsn s.out rel.offset = some w → isAdrp w = true →
        ∃ w', readInsn out rel.offset = some w' ∧ isAdrp w' = true) ∧
      ∀ next, PairWords patched relocs out i rel next →
        readInsn s.out rel.offset = readInsn out rel.offset := by
  obtain ⟨edits, hedited, hfrom, -⟩ := h.edits
  have hlater : ∀ e ∈ edits, e.offset + 4 ≤ rel.offset := by
    intro e he
    obtain ⟨j, hj, rel', next', target', _, hpair, hoffset, -⟩ := hfrom e he
    obtain ⟨_, _, hc, -⟩ := hpair.candidate
    have hne : j + 1 ≠ i := fun heq => (hfree j heq).add _ _ _ hpair
    rw [hoffset, ← hc.offset_eq]
    exact hc.later hsorted (by omega) hrel
  refine ⟨hedited.readInsn_of_apart fun e he => .inr (by have := hlater e he; omega), ?_, ?_⟩
  · intro w hw hadrp
    by_cases hat : ∃ e ∈ edits, rel.offset = e.offset + 4
    · -- The word is the second one of a pair: an `adr` now.
      obtain ⟨e, he, heq⟩ := hat
      obtain ⟨_, _, _, _, _, _, _, -, -, -, hdecode⟩ := hfrom e he
      have hnow := (hedited.words e he).2
      rw [← heq, hw] at hnow
      have hnot := ((class_of_decode hdecode).2.2.2 _ _ rfl).1
      rw [← Option.some.inj hnow, hadrp] at hnot
      exact nomatch hnot
    · -- The last byte of the word lies behind all pairs so far.
      have hlen := add_le_of_readInsn hw
      rw [hedited.length_eq] at hlen
      obtain ⟨w', hw'⟩ : ∃ w', readInsn out rel.offset = some w' := by
        rw [readInsn, readLe, if_pos hlen]
        exact ⟨_, rfl⟩
      have hbyte : s.out[rel.offset + 3]? = out[rel.offset + 3]? := by
        refine hedited.others _ fun e he => .inr ?_
        have hle := hlater e he
        have hne : rel.offset ≠ e.offset + 4 := fun heq => hat ⟨e, he, heq⟩
        omega
      exact ⟨w', hw', (isAdrp_congr hbyte hw hw').symm.trans hadrp⟩
  · intro next hwords
    refine hedited.readInsn_of_apart fun e he => .inr ?_
    obtain ⟨j, hj, rel', next', target', _, hpair, hoffset, -⟩ := hfrom e he
    have hrewritten : IsRewritten patched base gotTarget relocs out j rel' next' :=
      .inl ⟨target', hpair⟩
    rw [hoffset]
    exact hrewritten.apart hsorted hapart hwords hj

/-- The pass tests a GOT access as on the contents before it. -/
theorem ScanInv.gotPairTarget_eq
    (hfree : ∀ j, j + 1 = i → NoPair patched base gotTarget relocs out j)
    (hrel : relocs[i]? = some rel) (hkind : kindOf patched rel = R_AARCH64_ADR_GOT_PAGE)
    {next : Relocation} (hnext : relocs[i + 1]? = some next) :
    gotPairTarget patched base gotTarget s.out rel next =
      gotPairTarget patched base gotTarget out rel next := by
  obtain ⟨hsecond, hadrp, hfirst⟩ := h.words hsorted hapart hfree hrel
  by_cases hoffset : next.offset = rel.offset + 4
  · by_cases hwords : PairWords patched relocs out i rel next
    · exact gotPairTarget_congr (hfirst next hwords) (by rw [hoffset, hsecond])
    -- Neither contents pass the masks.
    have hnot : ∀ cur : List UInt8, readInsn cur next.offset = readInsn out next.offset →
        (∀ w, readInsn cur rel.offset = some w → isAdrp w = true →
          ∃ w', readInsn out rel.offset = some w' ∧ isAdrp w' = true) →
        gotPairTarget patched base gotTarget cur rel next = none := by
      intro cur hcur hcuradrp
      rw [Option.eq_none_iff_forall_ne_some]
      intro target htarget
      obtain ⟨hkind', -, hrelaxable⟩ := gotPairTarget_eq_some_iff.mp htarget
      obtain ⟨-, w₀, w₁, h₀, h₁, hgot, -⟩ := gotPairIsRelaxable_iff.mp hrelaxable
      obtain ⟨w₀', h₀', hadrp'⟩ := hcuradrp w₀ h₀ hgot.1
      exact hwords ⟨hrel, hnext, hoffset, w₀', w₁, h₀', hcur ▸ h₁, hadrp',
        hgot.2.2.2.1.trans hgot.2.2.2.2.symm, .inl ⟨hkind, hkind', hgot.2.1⟩⟩
    rw [hnot s.out (by rw [hoffset, hsecond]) hadrp, hnot out rfl fun w hw ha => ⟨w, hw, ha⟩]
  · have hnot : ∀ cur : List UInt8, gotPairTarget patched base gotTarget cur rel next = none := by
      intro cur
      rw [Option.eq_none_iff_forall_ne_some]
      intro target htarget
      obtain ⟨-, -, hrelaxable⟩ := gotPairTarget_eq_some_iff.mp htarget
      exact hoffset (checkedAdd_eq_some (gotPairIsRelaxable_iff.mp hrelaxable).1.1).1
    rw [hnot, hnot]

/-- The pass tests an `adrp; add` as on the contents before it. -/
theorem ScanInv.addPairTarget_eq
    (hfree : ∀ j, j + 1 = i → NoPair patched base gotTarget relocs out j)
    (hrel : relocs[i]? = some rel) (hkind : kindOf patched rel = R_AARCH64_ADR_PREL_PG_HI21)
    {next : Relocation} (hnext : relocs[i + 1]? = some next)
    (hkind' : kindOf patched next = R_AARCH64_ADD_ABS_LO12_NC) :
    addPairTarget s.out base rel next = addPairTarget out base rel next ∧
      (addPairTarget out base rel next ≠ none →
        readInsn s.out rel.offset = readInsn out rel.offset ∧
          readInsn s.out next.offset = readInsn out next.offset) := by
  obtain ⟨hsecond, hadrp, hfirst⟩ := h.words hsorted hapart hfree hrel
  by_cases hoffset : next.offset = rel.offset + 4
  · by_cases hwords : PairWords patched relocs out i rel next
    · have h₀ := hfirst next hwords
      have h₁ : readInsn s.out next.offset = readInsn out next.offset := by rw [hoffset, hsecond]
      exact ⟨addPairTarget_congr h₀ h₁, fun _ => ⟨h₀, h₁⟩⟩
    have hnot : ∀ cur : List UInt8, readInsn cur next.offset = readInsn out next.offset →
        (∀ w, readInsn cur rel.offset = some w → isAdrp w = true →
          ∃ w', readInsn out rel.offset = some w' ∧ isAdrp w' = true) →
        addPairTarget cur base rel next = none := by
      intro cur hcur hcuradrp
      rw [Option.eq_none_iff_forall_ne_some]
      intro target htarget
      obtain ⟨-, w₀, w₁, h₀, h₁, hadd, -⟩ := addPairTarget_eq_some_iff.mp htarget
      obtain ⟨w₀', h₀', hadrp'⟩ := hcuradrp w₀ h₀ hadd.1
      exact hwords ⟨hrel, hnext, hoffset, w₀', w₁, h₀', hcur ▸ h₁, hadrp',
        hadd.2.2.1.trans hadd.2.2.2.symm, .inr ⟨hkind, hkind', bits_of_isAddImm64 hadd.2.1⟩⟩
    have hnone := hnot out rfl fun w hw ha => ⟨w, hw, ha⟩
    rw [hnot s.out (by rw [hoffset, hsecond]) hadrp, hnone]
    exact ⟨rfl, fun h => absurd rfl h⟩
  · have hnot : ∀ cur : List UInt8, addPairTarget cur base rel next = none := by
      intro cur
      rw [Option.eq_none_iff_forall_ne_some]
      intro target htarget
      exact hoffset (checkedAdd_eq_some (addPairTarget_eq_some_iff.mp htarget).1.1).1
    rw [hnot, hnot]
    exact ⟨rfl, fun h => absurd rfl h⟩

/-- **One relocation of the first pass.** -/
theorem scanStep_spec (hfree : ∀ j, j + 1 = i → NoPair patched base gotTarget relocs out j)
    (hrel : relocs[i]? = some rel) :
    StepOk patched base gotTarget relocs out i
      (scanStep patched base gotTarget rel relocs[i + 1]? s) := by
  have hsame : ∀ {rel'}, relocs[i]? = some rel' → rel' = rel := fun hrel' =>
    Option.some.inj (hrel'.symm.trans hrel)
  rw [scanStep.eq_def]
  by_cases hgot : kindOf patched rel = R_AARCH64_ADR_GOT_PAGE
  · rw [if_pos hgot]
    have hcongr : relocs[i + 1]?.bind (gotPairTarget patched base gotTarget s.out rel) =
        relocs[i + 1]?.bind (gotPairTarget patched base gotTarget out rel) := by
      cases hnext : relocs[i + 1]? with
      | none => rfl
      | some next => exact h.gotPairTarget_eq hsorted hapart hfree hrel hgot hnext
    have hadd : ∀ rel' next target, ¬AddPair patched base relocs out i rel' next target := by
      intro rel' _ _ hpair
      have hkind := hpair.2.2.1
      rw [hsame hpair.1, hgot] at hkind
      exact absurd hkind (by decide)
    rw [hcongr]
    cases hbind : relocs[i + 1]?.bind (gotPairTarget patched base gotTarget out rel) with
    | some target =>
      obtain ⟨next, hnext, htarget⟩ := Option.bind_eq_some_iff.mp hbind
      have hpair : GotPair patched base gotTarget relocs out i rel next target :=
        ⟨hrel, hnext, hgot, htarget⟩
      obtain ⟨_, _, hc, -⟩ := hpair.candidate
      refine ⟨h.got hsorted hapart hpair, nofun, fun _ => ⟨hc.noPair, ?_⟩⟩
      intro next' hnext' hunpaired
      obtain rfl := Option.some.inj (hnext.symm.trans hnext')
      rcases hunpaired with ⟨hkind, -⟩ | ⟨-, hnot⟩
      · exact absurd (hkind.symm.trans (gotPairTarget_eq_some_iff.mp htarget).1) (by decide)
      · exact hnot i rel target rfl hpair
    | none =>
      have hnone : NoPair patched base gotTarget relocs out i := by
        refine ⟨fun rel' next target hpair => ?_, hadd⟩
        obtain ⟨hrel', hnext, -, htarget⟩ := hpair
        rw [hsame hrel'] at htarget
        rw [hnext, Option.bind_some, htarget] at hbind
        exact nomatch hbind
      exact ⟨h.unpaired hnone hrel (.inl ⟨hgot, fun _ _ => hnone.got _ _ _⟩), fun _ => hnone, nofun⟩
  rw [if_neg hgot]
  have hnogot : ∀ rel' next target,
      ¬GotPair patched base gotTarget relocs out i rel' next target := fun rel' _ _ hpair =>
    hgot (hsame hpair.1 ▸ hpair.2.2.1)
  by_cases hld : kindOf patched rel = R_AARCH64_LD64_GOT_LO12_NC
  · rw [if_pos hld]
    have hnone : NoPair patched base gotTarget relocs out i := by
      refine ⟨hnogot, fun rel' _ _ hpair => ?_⟩
      have hkind := hpair.2.2.1
      rw [hsame hpair.1, hld] at hkind
      exact absurd hkind (by decide)
    exact ⟨h.unpaired hnone hrel (.inr ⟨hld, fun j _ _ hj => (hfree j hj).got _ _ _⟩),
      fun _ => hnone, nofun⟩
  rw [if_neg hld]
  have hpaired : ∀ rel', relocs[i]? = some rel' →
      ¬Unpaired patched base gotTarget relocs out i rel' := by
    intro rel' hrel' hunpaired
    rw [hsame hrel'] at hunpaired
    exact hunpaired.elim (fun h => hgot h.1) (fun h => hld h.1)
  have hstay : (∀ rel' next target, ¬AddPair patched base relocs out i rel' next target) →
      StepOk patched base gotTarget relocs out i (s, false) := fun hadd =>
    ⟨h.skip ⟨hnogot, hadd⟩ hpaired, fun _ => ⟨hnogot, hadd⟩, nofun⟩
  by_cases hpage : kindOf patched rel = R_AARCH64_ADR_PREL_PG_HI21
  · rw [if_pos hpage]
    cases hnext : relocs[i + 1]? with
    | none => exact hstay fun _ _ _ hpair => nomatch hnext.symm.trans hpair.2.1
    | some next =>
      have hsame' : ∀ {next'}, relocs[i + 1]? = some next' → next' = next := fun hnext' =>
        Option.some.inj (hnext'.symm.trans hnext)
      by_cases hkind : kindOf patched next = R_AARCH64_ADD_ABS_LO12_NC
      · obtain ⟨hcongr, hwords⟩ :=
          h.addPairTarget_eq hsorted hapart hfree hrel hpage hnext hkind
        simp only [hkind, ne_eq, not_true_eq_false, if_false]
        rw [hcongr]
        cases htarget : addPairTarget out base rel next with
        | none =>
          refine hstay fun rel' next' target hpair => ?_
          rw [hsame hpair.1, hsame' hpair.2.1] at hpair
          exact nomatch htarget.symm.trans hpair.2.2.2.2.1
        | some target =>
          by_cases hreach : InReach (wrappingAdd base rel.offset) target
          · have hpair : AddPair patched base relocs out i rel next target :=
              ⟨hrel, hnext, hpage, hkind, htarget, hreach⟩
            obtain ⟨w₀, w₁, hc, -⟩ := hpair.candidate
            obtain ⟨hfirst, hsecond⟩ := hwords (by rw [htarget]; exact Option.some_ne_none _)
            have hread : readInsn s.out rel.offset = some w₀ ∧
                readInsn s.out (rel.offset + 4) = some w₁ :=
              ⟨hfirst.trans hc.first, hc.offset_eq ▸ hsecond.trans hc.second⟩
            have hfits := add_le_of_readInsn hread.2
            obtain ⟨v₁, htaken, hrewrites, hdecode⟩ := relaxAdrpAdd_spec
              (wrappingAdd base rel.offset) target (by omega) hc.offset_lt hread.1 hreach
            refine ⟨h.add hsorted hapart hpair hc.first hrewrites hdecode,
              fun hstays => ?_, fun _ => ⟨hc.noPair, fun next' hnext' hunpaired => ?_⟩⟩
            · exact nomatch htaken.symm.trans hstays
            · rw [hsame' hnext'] at hunpaired
              rcases hunpaired with ⟨hkind', -⟩ | ⟨hkind', -⟩ <;>
                exact absurd (hkind.symm.trans hkind') (by decide)
          · simp only [relaxAdrpAdd_of_far _ _ hreach]
            refine hstay fun rel' next' target' hpair => ?_
            rw [hsame hpair.1, hsame' hpair.2.1] at hpair
            rw [Option.some.inj (htarget.symm.trans hpair.2.2.2.2.1)] at hreach
            exact hreach hpair.2.2.2.2.2
      · simp only [hkind, ne_eq, not_false_eq_true, if_true]
        exact hstay fun _ _ _ hpair => hkind (hsame' hpair.2.1 ▸ hpair.2.2.2.1)
  · rw [if_neg hpage]
    exact hstay fun _ _ _ hpair => hpage (hsame hpair.1 ▸ hpair.2.2.1)

end

/-- **The first pass.** -/
theorem scan_spec {rest : List Relocation} (hrest : relocs.drop i = rest)
    (h : ScanInv patched base gotTarget relocs out i s)
    (hfree : ∀ j, j + 1 = i → NoPair patched base gotTarget relocs out j) :
    ∃ n, relocs.length ≤ n ∧
      ScanInv patched base gotTarget relocs out n (scan patched base gotTarget rest s) := by
  induction rest, s using scan.induct patched base gotTarget generalizing i with
  | case1 s => exact ⟨i, List.drop_eq_nil_iff.mp hrest, h⟩
  | case2 rel s =>
    obtain ⟨hrel, hend⟩ := drop_eq_cons hrest
    have hlen := List.drop_eq_nil_iff.mp hend
    have hstep := scanStep_spec hsorted hapart h hfree hrel
    rw [List.getElem?_eq_none hlen] at hstep
    exact ⟨i + 1, hlen, hstep.inv⟩
  | case3 rel next rest s htaken ih =>
    obtain ⟨hrel, hdrop⟩ := drop_eq_cons hrest
    obtain ⟨hnext, hrest'⟩ := drop_eq_cons hdrop
    have hstep := scanStep_spec hsorted hapart h hfree hrel
    rw [hnext] at hstep
    obtain ⟨hnone, hpaired⟩ := hstep.taken htaken
    rw [scan, if_pos htaken]
    refine ih (i := i + 2) hrest' (hstep.inv.skip hnone hpaired) fun j hj => ?_
    obtain rfl : j = i + 1 := by omega
    exact hnone
  | case4 rel next rest s hstays ih =>
    obtain ⟨hrel, hdrop⟩ := drop_eq_cons hrest
    obtain ⟨hnext, -⟩ := drop_eq_cons hdrop
    have hstep := scanStep_spec hsorted hapart h hfree hrel
    rw [hnext] at hstep
    rw [scan, if_neg hstays]
    refine ih hdrop hstep.inv fun j hj => ?_
    obtain rfl : j = i := by omega
    exact hstep.stays (Bool.not_eq_true _ ▸ hstays)

end Sorted

/-! ### The second pass -/

variable (base out) in
/-- The edit of a GOT pair. -/
def GotEdit (rel : Relocation) (target : ℕ) (e : Edit) : Prop :=
  e.offset = rel.offset ∧ isLoadStoreUnsigned e.second = false ∧
    ∃ w₀, readInsn out rel.offset = some w₀ ∧ (destinationRegister w₀ ≠ 31 →
      Leaves e.first e.second (wrappingAdd base rel.offset) (destinationRegister w₀) target)

variable {edits : List Edit}

/-- **The second pass.** -/
theorem rewritePairs_spec (unrelaxable : List ℕ) {pairs : List (Relocation × ℕ)} {cur : List UInt8}
    (hedited : Edited out edits cur)
    (hpairs : ∀ p ∈ pairs, ∃ j next, GotPair patched base gotTarget relocs out j p.1 next p.2)
    (hpairsapart : pairs.Pairwise fun p q =>
      binarySearch unrelaxable p.1.symbol = false → p.1.offset + 8 ≤ q.1.offset)
    (hedits : ∀ e ∈ edits, ∀ p ∈ pairs, binarySearch unrelaxable p.1.symbol = false →
      e.offset + 8 ≤ p.1.offset ∨ p.1.offset + 8 ≤ e.offset) :
    ∃ gots, Edited out (gots ++ edits) (rewritePairs base unrelaxable cur pairs) ∧
      (∀ e ∈ gots, ∃ p ∈ pairs, binarySearch unrelaxable p.1.symbol = false ∧
        GotEdit base out p.1 p.2 e) ∧
      ∀ p ∈ pairs, binarySearch unrelaxable p.1.symbol = false →
        ∃ e ∈ gots, GotEdit base out p.1 p.2 e := by
  induction pairs generalizing cur edits with
  | nil => exact ⟨[], hedited, nofun, nofun⟩
  | cons p pairs ih =>
    obtain ⟨hfirst, hrest⟩ := List.pairwise_cons.mp hpairsapart
    rw [rewritePairs, List.foldl_cons, ← rewritePairs]
    cases hsearch : binarySearch unrelaxable p.1.symbol with
    | true =>
      rw [if_pos rfl]
      obtain ⟨gots, hgots, hfrom, hto⟩ := ih hedited
        (fun q hq => hpairs q (List.mem_cons_of_mem _ hq)) hrest
        fun e he q hq => hedits e he q (List.mem_cons_of_mem _ hq)
      refine ⟨gots, hgots, fun e he => ?_, fun q hq hnot => ?_⟩
      · obtain ⟨q, hq, hedit⟩ := hfrom e he
        exact ⟨q, List.mem_cons_of_mem _ hq, hedit⟩
      · rcases List.mem_cons.mp hq with rfl | hq
        · exact nomatch hsearch.symm.trans hnot
        · exact hto q hq hnot
    | false =>
      rw [if_neg (by decide)]
      obtain ⟨j, next, hpair⟩ := hpairs p List.mem_cons_self
      obtain ⟨w₀, w₁, hc, -, hfits, value, -, hvalue⟩ := hpair.candidate
      have hbefore : ∀ e ∈ edits, e.offset + 8 ≤ p.1.offset ∨ p.1.offset + 8 ≤ e.offset :=
        fun e he => hedits e he p List.mem_cons_self hsearch
      have hread : readInsn cur p.1.offset = some w₀ := by
        rw [hedited.readInsn_of_apart fun e he => by have := hbefore e he; omega]
        exact hc.first
      have hlen := add_le_of_readInsn hc.second
      rw [hc.offset_eq] at hlen
      obtain ⟨v₀, v₁, hrewrites, hstore, hleaves⟩ := rewritePair_spec (hvalue ▸ value.toNat_lt)
        (by rw [hedited.length_eq]; omega) hc.offset_lt hread hfits
      have hedit : GotEdit base out p.1 p.2 ⟨p.1.offset, v₀, v₁⟩ :=
        ⟨rfl, hstore, w₀, hc.first, hleaves⟩
      have hcons : Edited out (⟨p.1.offset, v₀, v₁⟩ :: edits) (rewritePair base cur p.1 p.2) :=
        hedited.cons hrewrites fun e he => (hbefore e he).symm
      have hconsapart : ∀ e ∈ (⟨p.1.offset, v₀, v₁⟩ :: edits : List Edit), ∀ q ∈ pairs,
          binarySearch unrelaxable q.1.symbol = false →
          e.offset + 8 ≤ q.1.offset ∨ q.1.offset + 8 ≤ e.offset := by
        intro e he q hq hnot
        rcases List.mem_cons.mp he with rfl | he
        · exact .inl (hfirst q hq hsearch)
        · exact hedits e he q (List.mem_cons_of_mem _ hq) hnot
      obtain ⟨gots, hgots, hfrom, hto⟩ := ih hcons
        (fun q hq => hpairs q (List.mem_cons_of_mem _ hq)) hrest hconsapart
      refine ⟨gots ++ [⟨p.1.offset, v₀, v₁⟩], ?_, fun e he => ?_, fun q hq hnot => ?_⟩
      · rw [List.append_assoc, List.singleton_append]
        exact hgots
      · rcases List.mem_append.mp he with he | he
        · obtain ⟨q, hq, hedit'⟩ := hfrom e he
          exact ⟨q, List.mem_cons_of_mem _ hq, hedit'⟩
        · rw [List.mem_singleton.mp he]
          exact ⟨p, List.mem_cons_self, hsearch, hedit⟩
      · rcases List.mem_cons.mp hq with rfl | hq
        · exact ⟨_, List.mem_append_right _ List.mem_cons_self, hedit⟩
        · obtain ⟨e, he, hedit'⟩ := hto q hq hnot
          exact ⟨e, List.mem_append_left _ he, hedit'⟩

theorem relaxAdrpPairs_eq :
    relaxAdrpPairs patched base gotTarget out relocs =
      rewritePairs base
        (scan patched base gotTarget relocs ⟨out, [], []⟩).unrelaxable.mergeSort
        (scan patched base gotTarget relocs ⟨out, [], []⟩).out
        (scan patched base gotTarget relocs ⟨out, [], []⟩).pairs := by
  rw [relaxAdrpPairs]
  split
  · next hnil => rw [hnil]; rfl
  · rfl

section Sorted

variable (hsorted : relocs.Pairwise fun a b => a.offset ≤ b.offset)
  (hapart : WordsApart patched base gotTarget relocs out)

include hsorted hapart

variable (base gotTarget out) in
/-- **Both passes, as edits.** -/
theorem relaxAdrpPairs_edits :
    ∃ gots adds, Edited out (gots ++ adds) (relaxAdrpPairs patched base gotTarget out relocs) ∧
      (∀ e ∈ gots, ∃ j rel next target,
        GotPair patched base gotTarget relocs out j rel next target ∧
        AllPaired patched base gotTarget relocs out rel.symbol ∧ GotEdit base out rel target e) ∧
      (∀ j rel next target, GotPair patched base gotTarget relocs out j rel next target →
        AllPaired patched base gotTarget relocs out rel.symbol →
        ∃ e ∈ gots, GotEdit base out rel target e) ∧
      (∀ e ∈ adds, ∃ j, AddEdit patched base relocs out j e) ∧
      ∀ j rel next target, AddPair patched base relocs out j rel next target →
        ∃ e ∈ adds, AddEdit patched base relocs out j e := by
  have hinit : ScanInv patched base gotTarget relocs out 0 ⟨out, [], []⟩ := by
    refine ⟨⟨[], ⟨rfl, nofun, fun _ _ => rfl⟩, nofun, nofun⟩, fun p => ?_, List.Pairwise.nil,
      fun symbol => ?_⟩
    · exact ⟨nofun, fun ⟨_, h, _⟩ => (nomatch h)⟩
    · exact ⟨nofun, fun ⟨_, h, _⟩ => (nomatch h)⟩
  obtain ⟨n, hn, hinv⟩ := scan_spec hsorted hapart (List.drop_zero) hinit nofun
  rw [relaxAdrpPairs_eq]
  generalize scan patched base gotTarget relocs ⟨out, [], []⟩ = s at hinv ⊢
  have hlt : ∀ {j : ℕ} {rel}, relocs[j]? = some rel → j < n := fun hrel =>
    (List.getElem?_eq_some_iff.mp hrel).1.trans_le hn
  have hsearch : ∀ symbol, binarySearch s.unrelaxable.mergeSort symbol = false ↔
      AllPaired patched base gotTarget relocs out symbol := by
    intro symbol
    have hmerge : s.unrelaxable.mergeSort.Pairwise fun a b => compare a b ≠ .gt :=
      (List.pairwise_mergeSort (fun a b c hab hbc => by simp only [decide_eq_true_eq] at *; omega)
        (fun a b => by simp only [Bool.or_eq_true, decide_eq_true_eq]; omega) _).imp
        fun h => Nat.compare_ne_gt.mpr (by simpa using h)
    rw [Bool.eq_false_iff, Ne, binarySearch_iff hmerge, List.mem_mergeSort, hinv.unrelaxable]
    refine ⟨fun hnot i rel hrel hsymbol hunpaired => hnot ⟨i, hlt hrel, rel, hrel, hsymbol, hunpaired⟩,
      ?_⟩
    rintro hall ⟨j, -, rel, hrel, hsymbol, hunpaired⟩
    exact hall j rel hrel hsymbol hunpaired
  obtain ⟨adds, hedited, hfrom, hto⟩ := hinv.edits
  have hpairs : ∀ p ∈ s.pairs, ∃ j next,
      GotPair patched base gotTarget relocs out j p.1 next p.2 := by
    intro p hp
    obtain ⟨j, -, next, hpair⟩ := (hinv.pairs p).mp hp
    exact ⟨j, next, hpair⟩
  have haddsapart : ∀ e ∈ adds, ∀ p ∈ s.pairs,
      binarySearch s.unrelaxable.mergeSort p.1.symbol = false →
      e.offset + 8 ≤ p.1.offset ∨ p.1.offset + 8 ≤ e.offset := by
    intro e he p hp hnot
    obtain ⟨j, -, rel, next, target, -, hadd, hoffset, -⟩ := hfrom e he
    obtain ⟨j', next', hgot⟩ := hpairs p hp
    have hrewritten : IsRewritten patched base gotTarget relocs out j rel next :=
      .inl ⟨target, hadd⟩
    have hrewritten' : IsRewritten patched base gotTarget relocs out j' p.1 next' :=
      .inr ⟨p.2, hgot, (hsearch _).mp hnot⟩
    rw [hoffset]
    rcases Nat.lt_trichotomy j j' with hlt | rfl | hgt
    · exact .inl (hrewritten.apart hsorted hapart hgot.pairWords hlt)
    · have hkind := hgot.2.2.1
      rw [Option.some.inj (hgot.1.symm.trans hadd.1), hadd.2.2.1] at hkind
      exact absurd hkind (by decide)
    · exact .inr (hrewritten'.apart hsorted hapart hadd.pairWords hgt)
  obtain ⟨gots, hgots, hgotsfrom, hgotsto⟩ :=
    rewritePairs_spec s.unrelaxable.mergeSort hedited hpairs
      (hinv.pairs_apart.imp fun hp hnot => hp ((hsearch _).mp hnot)) haddsapart
  refine ⟨gots, adds, hgots, fun e he => ?_, fun j rel next target hpair hall => ?_,
    fun e he => ?_, fun j rel next target hpair => hto j (hlt hpair.1) rel next target hpair⟩
  · obtain ⟨p, hp, hnot, hedit⟩ := hgotsfrom e he
    obtain ⟨j, next, hpair⟩ := hpairs p hp
    exact ⟨j, p.1, next, p.2, hpair, (hsearch _).mp hnot, hedit⟩
  · exact hgotsto (rel, target) ((hinv.pairs _).mpr ⟨j, hlt hpair.1, next, hpair⟩)
      ((hsearch _).mpr hall)
  · obtain ⟨j, -, hedit⟩ := hfrom e he
    exact ⟨j, hedit⟩

end Sorted

/-! ### A proper pair means what it meant -/

theorem lt_of_register {word : ℕ} (h : destinationRegister word ≠ 31) :
    destinationRegister word < 31 := by
  have := destinationRegister_lt word
  omega

variable {out' : List UInt8}

theorem AddEdit.leavesSame {e : Edit} (hedited : Edited out edits out') (he : e ∈ edits)
    (h : AddEdit patched base relocs out i e) (hproper : Proper patched base gotTarget relocs out) :
    ∃ rel next target, AddPair patched base relocs out i rel next target ∧
      LeavesSame patched base out out' rel next := by
  obtain ⟨rel, next, target, w, hpair, hoffset, hnop, hw, hdecode⟩ := h
  obtain ⟨w₀, w₁, hc, hwords, hvalue⟩ := hpair.candidate
  obtain rfl := Option.some.inj (hc.first.symm.trans hw)
  obtain ⟨hfirst, hsecond⟩ := hedited.words e he
  rw [hoffset] at hfirst hsecond
  rw [← hc.offset_eq] at hsecond
  obtain ⟨word, hword, hne⟩ := hproper.add i rel next target hpair
  obtain rfl := Option.some.inj (hc.second.symm.trans hword)
  rw [hwords.2.2.1] at hne
  have hdecode₀ := decode_of_isAdrp (readInsn_lt hc.first) hwords.1
  have hdecode₁ := decode_of_isAddImm64 (readInsn_lt hc.second) hwords.2.1
  rw [hwords.2.2.1, hwords.2.2.2] at hdecode₁
  refine ⟨rel, next, target, hpair, hpair.2.2.1, hpair.2.2.2.1, destinationRegister w₀,
    lt_of_register hne, w₀, w₁, _, _, _, _, target, hc.first, hc.second, hdecode₀, hdecode₁,
    hfirst, hsecond, ?_, ?_⟩
  · refine leaves_adrp_add hne hdecode₀ hdecode₁ ?_
    rw [add_page_imm, hvalue]
  · rw [hnop]
    refine leaves_nop_adr hdecode (add_adrDelta _ ?_)
    rw [← hvalue, wrappingAdd]
    exact Nat.mod_lt _ (by decide)

theorem GotEdit.loadsTarget {e : Edit} (hedited : Edited out edits out') (he : e ∈ edits)
    (h : GotEdit base out rel target e)
    (hpair : GotPair patched base gotTarget relocs out i rel next target)
    (hall : AllPaired patched base gotTarget relocs out rel.symbol)
    (hproper : Proper patched base gotTarget relocs out) :
    LoadsTarget patched base gotTarget out out' rel next := by
  obtain ⟨hoffset, -, w, hw, hleaves⟩ := h
  obtain ⟨w₀, w₁, hc, hwords, -, value, hsymbol, hvalue⟩ := hpair.candidate
  obtain rfl := Option.some.inj (hc.first.symm.trans hw)
  obtain ⟨hfirst, hsecond⟩ := hedited.words e he
  rw [hoffset] at hfirst hsecond
  rw [← hc.offset_eq] at hsecond
  obtain ⟨word, hword, hldr, hne⟩ := hproper.got i rel next target hpair hall
  obtain rfl := Option.some.inj (hc.second.symm.trans hword)
  have hdecode₀ := decode_of_isAdrp (readInsn_lt hc.first) hwords.1
  have hdecode₁ := decode_of_ldr (readInsn_lt hc.second) hldr
  obtain ⟨-, -, -, hrt, hrn⟩ := hwords
  rw [hrt] at hne
  rw [hrt, hrn] at hdecode₁
  refine ⟨hpair.2.2.1, (gotPairTarget_eq_some_iff.mp hpair.2.2.2).1, destinationRegister w₀,
    lt_of_register hne, w₀, w₁, _, _, _, _, value, hc.first, hc.second, hdecode₀, hdecode₁,
    hfirst, hsecond, hsymbol, ?_⟩
  rw [hvalue]
  exact hleaves hne

variable (patched base gotTarget relocs out) in
/-- The pairs that are rewritten. -/
def rewrittenPairs : Set ℕ :=
  {i | (∃ rel next target, AddPair patched base relocs out i rel next target) ∨
    ∃ rel next target, GotPair patched base gotTarget relocs out i rel next target ∧
      AllPaired patched base gotTarget relocs out rel.symbol}

theorem GotPair.symbol_eq (h : GotPair patched base gotTarget relocs out i rel next target) :
    rel.symbol = next.symbol :=
  (gotPairIsRelaxable_iff.mp (gotPairTarget_eq_some_iff.mp h.2.2.2).2.2).1.2.1

/-- **The GOT accesses of a symbol are rewritten together.** -/
theorem rewrittenPairs_allOrNone (symbol : ℕ) :
    (∀ i rel, relocs[i]? = some rel → IsGotAccess patched rel → rel.symbol = symbol →
      Covered (rewrittenPairs patched base gotTarget relocs out) i) ∨
    ∀ i rel, relocs[i]? = some rel → IsGotAccess patched rel → rel.symbol = symbol →
      ¬Covered (rewrittenPairs patched base gotTarget relocs out) i := by
  by_cases hall : AllPaired patched base gotTarget relocs out symbol
  · left
    rintro i rel hrel haccess rfl
    have hpaired := hall i rel hrel rfl
    simp only [Unpaired, not_or, not_and, not_forall, not_not] at hpaired
    rcases haccess with hkind | hkind
    · obtain ⟨next, target, hpair⟩ := hpaired.1 hkind
      exact .inl (.inr ⟨rel, next, target, hpair, hall⟩)
    · obtain ⟨j, prev, target, hj, hpair⟩ := hpaired.2 hkind
      refine .inr ⟨j, .inr ⟨prev, rel, target, hpair, ?_⟩, hj⟩
      rw [hpair.symbol_eq]
      exact hall
  · right
    rintro i rel hrel haccess rfl (hmem | ⟨j, hmem, rfl⟩)
    · rcases hmem with ⟨rel', next, target, hadd⟩ | ⟨rel', next, target, hgot, hall'⟩
      · obtain rfl := Option.some.inj (hrel.symm.trans hadd.1)
        rcases haccess with hkind | hkind <;>
          exact absurd (hkind.symm.trans hadd.2.2.1) (by decide)
      · obtain rfl := Option.some.inj (hrel.symm.trans hgot.1)
        exact hall hall'
    · rcases hmem with ⟨rel', next, target, hadd⟩ | ⟨rel', next, target, hgot, hall'⟩
      · obtain rfl := Option.some.inj (hrel.symm.trans hadd.2.1)
        rcases haccess with hkind | hkind <;>
          exact absurd (hkind.symm.trans hadd.2.2.2.1) (by decide)
      · obtain rfl := Option.some.inj (hrel.symm.trans hgot.2.1)
        rw [hgot.symbol_eq] at hall'
        exact hall hall'

/-! ### What a changed word was -/

/-- A second word that changed belongs to a pair that was what its relocations say. -/
theorem Explains.second_word (hsorted : relocs.Pairwise fun a b => a.offset ≤ b.offset)
    (hapart : WordsApart patched base gotTarget relocs out) {rewritten : Set ℕ}
    (h : Explains patched base gotTarget relocs out out' rewritten) {w₀ w₁ v : ℕ}
    (hrewritten : IsRewritten patched base gotTarget relocs out i rel next)
    (hc : Candidate patched relocs out i rel next w₀ w₁)
    (hv : readInsn out' next.offset = some v) (hne : v ≠ w₁) :
    destinationRegister w₁ ≠ 31 ∧ (bits w₁ 22 10 = 0x3e5 ∨ bits w₁ 23 9 = 0x122) := by
  have hchanged : ∃ k, next.offset ≤ k ∧ k < next.offset + 4 ∧ out'[k]? ≠ out[k]? := by
    by_contra hnot
    have hsame := readInsn_congr next.offset h.length_eq fun k hk hk' => by
      by_contra hdiff
      exact hnot ⟨k, hk, hk', hdiff⟩
    rw [hv, hc.second] at hsame
    exact hne (Option.some.inj hsame)
  obtain ⟨k, hk, hk', hdiff⟩ := hchanged
  have hin : ∃ i' ∈ rewritten, ∃ rel', relocs[i']? = some rel' ∧ rel'.offset ≤ k ∧
      k < rel'.offset + 8 := by
    by_contra hnot
    refine hdiff (h.others k fun i' hi' rel' hrel' => ?_)
    by_contra hin
    exact hnot ⟨i', hi', rel', hrel', by omega, by omega⟩
  obtain ⟨i', hi', rel', hrel', hle, hlt⟩ := hin
  obtain ⟨rel'', next', hrel'', hnext', hoffset, -, -, hpair⟩ := h.pair i' hi'
  obtain rfl := Option.some.inj (hrel'.symm.trans hrel'')
  have hold : ∃ n < 31, ∃ w₀' w₁' offset, readInsn out rel'.offset = some w₀' ∧
      readInsn out next'.offset = some w₁' ∧ decode w₀' = some (.adrp n offset) ∧
      ((∃ imm, decode w₁' = some (.ldr n n imm)) ∨ ∃ imm, decode w₁' = some (.addImm n n imm)) ∧
      PairWords patched relocs out i' rel' next' := by
    rcases hpair with ⟨hkind, hkind', n, hn, w₀', w₁', _, _, offset, imm, _, h₀, h₁, hd₀, hd₁, -⟩ |
      ⟨hkind, hkind', n, hn, w₀', w₁', _, _, offset, imm, _, h₀, h₁, hd₀, hd₁, -⟩
    · obtain ⟨hadrp, -⟩ := (class_of_decode hd₀).1 _ _ rfl
      obtain ⟨hclass, hrt, hrn⟩ := (class_of_decode hd₁).2.1 _ _ _ rfl
      refine ⟨n, hn, w₀', w₁', offset, h₀, h₁, hd₀, .inl ⟨imm, hd₁⟩, hrel', hnext', hoffset, w₀',
        w₁', h₀, h₁, hadrp, hrt.trans hrn.symm, .inl ⟨hkind, hkind', ?_⟩⟩
      rw [isLoadStoreUnsigned_iff]
      simp only [bits] at hclass ⊢
      omega
    · obtain ⟨hadrp, -⟩ := (class_of_decode hd₀).1 _ _ rfl
      obtain ⟨hclass, hrd, hrn⟩ := (class_of_decode hd₁).2.2.1 _ _ _ rfl
      exact ⟨n, hn, w₀', w₁', offset, h₀, h₁, hd₀, .inr ⟨imm, hd₁⟩, hrel', hnext', hoffset, w₀',
        w₁', h₀, h₁, hadrp, hrd.trans hrn.symm, .inr ⟨hkind, hkind', hclass⟩⟩
  obtain ⟨n, hn, w₀', w₁', offset, h₀, h₁, hd₀, hd₁, hwords⟩ := hold
  have hclear := hapart i rel next hrewritten i' rel' next' hwords
  -- An earlier pair ends before the first word: its second relocation does not come after `rel`.
  have hbefore : i' < i → rel'.offset + 4 ≤ rel.offset := by
    intro hlt'
    rw [← hoffset]
    rcases Nat.lt_or_eq_of_le (Nat.succ_le_of_lt hlt') with hlt' | heq
    · obtain ⟨hi, hget⟩ := List.getElem?_eq_some_iff.mp hc.rel_eq
      obtain ⟨hi', hget'⟩ := List.getElem?_eq_some_iff.mp hnext'
      rw [← hget, ← hget']
      exact List.pairwise_iff_getElem.mp hsorted _ _ hi' hi hlt'
    · rw [Nat.succ_eq_add_one] at heq
      rw [heq, hc.rel_eq] at hnext'
      rw [Option.some.inj hnext']
  have hafter : i + 1 < i' → next.offset ≤ rel'.offset := fun hlt' =>
    hc.later hsorted hlt' hrel'
  have hnext := hc.offset_eq
  obtain hsecond | hfirst : rel'.offset = next.offset ∨ rel'.offset = rel.offset := by
    rcases Nat.lt_trichotomy i' i with hlt' | rfl | hgt
    · have := hbefore hlt'
      omega
    · exact .inr (congrArg Relocation.offset (Option.some.inj (hrel'.symm.trans hc.rel_eq)))
    · rcases Nat.lt_or_eq_of_le (Nat.succ_le_of_lt hgt) with hgt | rfl
      · have := hafter hgt
        omega
      · exact .inl (congrArg Relocation.offset (Option.some.inj (hrel'.symm.trans hc.next_eq)))
  · rw [hsecond, hc.second] at h₀
    obtain rfl := Option.some.inj h₀
    have hadrp := ((class_of_decode hd₀).1 _ _ rfl).1
    exact absurd (hc.notAdrp.symm.trans hadrp) Bool.false_ne_true
  · rw [hoffset, hfirst, ← hnext, hc.second] at h₁
    obtain rfl := Option.some.inj h₁
    rcases hd₁ with ⟨imm, hd₁⟩ | ⟨imm, hd₁⟩
    · obtain ⟨hclass, hregister, -⟩ := (class_of_decode hd₁).2.1 _ _ _ rfl
      exact ⟨by omega, .inl hclass⟩
    · obtain ⟨hclass, hregister, -⟩ := (class_of_decode hd₁).2.2.1 _ _ _ rfl
      exact ⟨by omega, .inr hclass⟩

/-! ### The relaxation -/

/-- `adrp x0; ldr x0, [x0, #0x10]` and `adrp x1; add x1, x1, #0x40`. -/
def sampleCode : List UInt8 :=
  [0x90000080, 0xf9400800, 0x90000081, 0x91010021].flatMap (leBytes 4)

/-- The relocations of a GOT access and of an address. -/
def sampleRelocs : List Relocation :=
  [⟨0, 1, R_AARCH64_ADR_GOT_PAGE, 0⟩, ⟨4, 1, R_AARCH64_LD64_GOT_LO12_NC, 0⟩,
    ⟨8, 2, R_AARCH64_ADR_PREL_PG_HI21, 0⟩, ⟨12, 2, R_AARCH64_ADD_ABS_LO12_NC, 0⟩]

/-- `adrp x0; str x0, [x0, #0x10]`. -/
def storeCode : List UInt8 := [0x90000080, 0xf9000800].flatMap (leBytes 4)

end Qld.Elf.Arch
