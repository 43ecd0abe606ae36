import Mathlib.Data.List.Induction
import Qld.Arch.Aarch64

/-!
# Cortex-A53 erratum 843419

The model of the scan of `arch/aarch64.rs` for the sequences that the erratum affects, and of the
code ranges of `elf/arch/aarch64_errata.rs` that it scans.

* `is843419Sequence` — an `adrp`, a load or store, and one that is based on the `adrp`;
* `scan843419` — the scan, from page end to page end; `codeRanges` — what mapping symbols say;
* `Site` — where a plain scan finds a sequence; `Overreaches` — a sequence whose last word lies
  across the end of the range;
* `mem_scanFrom`, `scanFrom_sorted` — what the scan finds, and in which order;
* `mem_codeRanges_iff` — the ranges are the bytes that follow a `$x`.
-/

namespace Qld.Arch.Aarch64

open Qld.Lib

/-! ### Instructions -/

def isLoadStoreClass (insn : ℕ) : Bool := insn &&& 0x0a000000 == 0x08000000

def isSt1MultipleOpcode (insn : ℕ) : Bool :=
  [0x2000, 0x6000, 0x7000, 0xa000].contains (insn &&& 0xf000)

def isSt1SingleOpcode (insn : ℕ) : Bool := [0, 0x4000, 0x8000].contains (insn &&& 0x0040e000)

def isSt1Multiple (insn : ℕ) : Bool := insn &&& 0xbfff0000 == 0x0c000000 && isSt1MultipleOpcode insn

def isSt1MultiplePost (insn : ℕ) : Bool :=
  insn &&& 0xbfe00000 == 0x0c800000 && isSt1MultipleOpcode insn

def isSt1Single (insn : ℕ) : Bool := insn &&& 0xbfff0000 == 0x0d000000 && isSt1SingleOpcode insn

def isSt1SinglePost (insn : ℕ) : Bool :=
  insn &&& 0xbfe00000 == 0x0d800000 && isSt1SingleOpcode insn

def isSt1 (insn : ℕ) : Bool :=
  isSt1Multiple insn || isSt1MultiplePost insn || isSt1Single insn || isSt1SinglePost insn

def isLoadStoreExclusive (insn : ℕ) : Bool := insn &&& 0x3f000000 == 0x08000000

def isLoadExclusive (insn : ℕ) : Bool := insn &&& 0x3f400000 == 0x08400000

def isLoadLiteral (insn : ℕ) : Bool := insn &&& 0x3b000000 == 0x18000000

def isStnp (insn : ℕ) : Bool := insn &&& 0x3bc00000 == 0x28000000

def isStpPost (insn : ℕ) : Bool := insn &&& 0x3bc00000 == 0x28800000

def isStpOffset (insn : ℕ) : Bool := insn &&& 0x3bc00000 == 0x29000000

def isStpPre (insn : ℕ) : Bool := insn &&& 0x3bc00000 == 0x29800000

def isStp (insn : ℕ) : Bool := isStpPost insn || isStpOffset insn || isStpPre insn

def isLoadStoreUnscaled (insn : ℕ) : Bool := insn &&& 0x3b000c00 == 0x38000000

def isLoadStorePost (insn : ℕ) : Bool := insn &&& 0x3b200c00 == 0x38000400

def isLoadStoreUnprivileged (insn : ℕ) : Bool := insn &&& 0x3b200c00 == 0x38000800

def isLoadStorePre (insn : ℕ) : Bool := insn &&& 0x3b200c00 == 0x38000c00

def isLoadStoreRegisterOffset (insn : ℕ) : Bool := insn &&& 0x3b200c00 == 0x38200800

def isSingleRegisterLoadStore (insn : ℕ) : Bool :=
  isLoadStoreUnscaled insn || isLoadStorePost insn || isLoadStoreUnprivileged insn ||
    isLoadStorePre insn || isLoadStoreRegisterOffset insn || isLoadStoreUnsigned insn

/-- An Armv8.0 load that is not a structure load. -/
def isNonStructureLoad (insn : ℕ) : Bool :=
  if isLoadExclusive insn || isLoadLiteral insn then true
  else if !isSingleRegisterLoadStore insn then false
  else
    let size := (insn >>> 30) &&& 3
    let vector := (insn >>> 26) &&& 1
    let opc := (insn >>> 22) &&& 3
    -- `opc` 0 stores; `opc` 2 stores 128-bit vectors, and prefetches.
    opc != 0 && !(size == 0 && vector == 1 && opc == 2) && !(size == 3 && vector == 0 && opc == 2)

def hasWriteback (insn : ℕ) : Bool :=
  isLoadStorePre insn || isLoadStorePost insn || isStpPre insn || isStpPost insn ||
    isSt1SinglePost insn || isSt1MultiplePost insn

def loadStoreWrites (insn register : ℕ) : Bool :=
  (isNonStructureLoad insn && destinationRegister insn == register) ||
    (hasWriteback insn && baseRegister insn == register)

/-- A branch ends a straight-line sequence. -/
def isBranch (insn : ℕ) : Bool :=
  insn &&& 0xfe000000 == 0xd6000000 || insn &&& 0xfe000000 == 0x54000000 ||
    insn &&& 0x7c000000 == 0x14000000 || insn &&& 0x7c000000 == 0x34000000

/-- The sequence: an `adrp` that writes `xn`, a load or store that does not write `xn`, and a load
or store with an unsigned offset based on `xn`. -/
def is843419Sequence (adrp second last : ℕ) : Bool :=
  if !isAdrp adrp then false
  else
    let register := destinationRegister adrp
    isLoadStoreClass second &&
      (isLoadStoreExclusive second || isLoadLiteral second || isSingleRegisterLoadStore second ||
        isStp second || isStnp second || isSt1 second) &&
      !loadStoreWrites second register && isLoadStoreUnsigned last && baseRegister last == register

/-! ### The scan -/

/-- The page offset of an address of the section. -/
def pageOffset (address offset : ℕ) : ℕ := (address + offset) % 2 ^ 64 &&& 0xfff

/-- The next offset whose page offset is at least `0xff8`. -/
def toPageEnd (address offset : ℕ) : ℕ :=
  if pageOffset address offset < 0xff8 then offset + (0xff8 - pageOffset address offset) else offset

/-- What the scan records of the words at an offset; `left` bytes are left of the range. -/
def sitesAt (code : List UInt8) (offset left first second third : ℕ) : List ℕ :=
  if is843419Sequence first second third then [offset + 8]
  else if left > 12 ∧ !isBranch third then
    match readInsn code (offset + 12) with
    | some fourth => if is843419Sequence first second fourth then [offset + 12] else []
    | none => []
  else []

/-- The three words that a sequence has at least. -/
def threeWords (code : List UInt8) (offset : ℕ) : Option (ℕ × ℕ × ℕ) := do
  let first ← readInsn code offset
  let second ← readInsn code (offset + 4)
  let third ← readInsn code (offset + 8)
  return (first, second, third)

theorem le_toPageEnd (address offset : ℕ) : offset ≤ toPageEnd address offset := by
  rw [toPageEnd]
  split
  · exact Nat.le_add_right _ _
  · exact Nat.le_refl _

/-- The offset after one that is at a page end. -/
def advance (address at_ : ℕ) : ℕ := if pageOffset address at_ = 0xff8 then at_ + 4 else at_ + 0xffc

theorem lt_advance (address at_ : ℕ) : at_ < advance address at_ := by
  rw [advance]
  split <;> omega

/-- The loop.  Offsets stay below the length of a slice and an instruction more, so that no addition
saturates. -/
def scanFrom (code : List UInt8) (address stop offset : ℕ) : List ℕ :=
  if offset < stop then
    let at_ := toPageEnd address offset
    if at_ + 12 ≤ stop then
      match threeWords code at_ with
      | none => []
      | some words =>
        sitesAt code at_ (stop - at_) words.1 words.2.1 words.2.2 ++
          scanFrom code address stop (advance address at_)
    else []
  else []
termination_by stop - offset
decreasing_by
  have hle := le_toPageEnd address offset
  have hlt := lt_advance address (toPageEnd address offset)
  omega

/-- The offsets of the instructions that the erratum affects in `code[start..end]`, when `code`
starts at `address`. -/
def scan843419 (code : List UInt8) (address start stop : ℕ) : List ℕ :=
  scanFrom code address (min stop code.length) start

end Qld.Arch.Aarch64

namespace Qld.Elf.Arch.Aarch64Errata

/-! ### Mapping symbols -/

/-- A mapping symbol of a section: its value, and whether it starts code. -/
abbrev Mapping := ℕ × Bool

/-- A run of symbols of one kind counts once. -/
def runs (symbols : List Mapping) : List Mapping :=
  symbols.foldl (fun runs symbol =>
    if runs.getLast?.all fun last => last.2 != symbol.2 then runs ++ [symbol] else runs) []

/-- The code ranges of a section of `size` bytes: leading data symbols are dropped. -/
def codeRanges (symbols : List Mapping) (size : ℕ) : List (ℕ × ℕ) :=
  let runs := runs symbols
  let runs := if runs.head?.any fun first => !first.2 then runs.tail else runs
  (runs.zipIdx.filter fun run => run.1.2).map fun run =>
    (run.1.1, min ((runs[run.2 + 1]?).elim size Prod.fst) size)

end Qld.Elf.Arch.Aarch64Errata

namespace Qld.Arch.Aarch64

open Qld.Lib

/-! ### A plain scan -/

section Scan

variable {code : List UInt8} {address stop offset a o : ℕ}

/-- An `adrp` at this offset is one of the last two words of a page. -/
def AtPageEnd (address a : ℕ) : Prop :=
  a % 4 = 0 ∧ ((address + a) % 4096 = 0xff8 ∨ (address + a) % 4096 = 0xffc)

/-- The words at `a` are a sequence of three. -/
def Three (code : List UInt8) (stop a : ℕ) : Prop :=
  a + 12 ≤ stop ∧ ∃ first second third, readInsn code a = some first ∧
    readInsn code (a + 4) = some second ∧ readInsn code (a + 8) = some third ∧
      is843419Sequence first second third = true

/-- The words at `a` are not a sequence of three, but of four. -/
def Four (code : List UInt8) (a : ℕ) : Prop :=
  ∃ first second third fourth, readInsn code a = some first ∧
    readInsn code (a + 4) = some second ∧ readInsn code (a + 8) = some third ∧
      readInsn code (a + 12) = some fourth ∧ is843419Sequence first second third = false ∧
        isBranch third = false ∧ is843419Sequence first second fourth = true

/-- A sequence wholly inside `start .. stop` has its last word at `o`. -/
def Site (code : List UInt8) (address start stop o : ℕ) : Prop :=
  ∃ a, start ≤ a ∧ AtPageEnd address a ∧
    (Three code stop a ∧ o = a + 8 ∨ Four code a ∧ a + 16 ≤ stop ∧ o = a + 12)

/-- A sequence of four words begins inside `start .. stop`, and its last word reaches across the
end. -/
def Overreaches (code : List UInt8) (address start stop : ℕ) : Prop :=
  ∃ a, start ≤ a ∧ AtPageEnd address a ∧ Four code a ∧ a + 12 < stop ∧ stop < a + 16

theorem pageOffset_eq (address offset : ℕ) :
    pageOffset address offset = (address + offset) % 4096 := by
  rw [pageOffset, show 0xfff = 2 ^ 12 - 1 from rfl, Nat.and_two_pow_sub_one_eq_mod]
  omega

variable {words : ℕ × ℕ × ℕ}

theorem threeWords_eq_some : threeWords code a = some words ↔
    readInsn code a = some words.1 ∧ readInsn code (a + 4) = some words.2.1 ∧
      readInsn code (a + 8) = some words.2.2 := by
  cases h₁ : readInsn code a with
  | none => simp [threeWords, h₁]
  | some first =>
    cases h₂ : readInsn code (a + 4) with
    | none => simp [threeWords, h₁, h₂]
    | some second =>
      cases h₃ : readInsn code (a + 8) with
      | none => simp [threeWords, h₁, h₂, h₃]
      | some third => simp [threeWords, h₁, h₂, h₃, Prod.ext_iff]

theorem readInsn_isSome (h : a + 4 ≤ code.length) : ∃ word, readInsn code a = some word :=
  ⟨_, if_pos h⟩

theorem threeWords_isSome (h : a + 12 ≤ code.length) : ∃ words, threeWords code a = some words := by
  obtain ⟨first, hfirst⟩ := readInsn_isSome (show a + 4 ≤ code.length by omega)
  obtain ⟨second, hsecond⟩ := readInsn_isSome (show a + 4 + 4 ≤ code.length by omega)
  obtain ⟨third, hthird⟩ := readInsn_isSome (show a + 8 + 4 ≤ code.length by omega)
  exact ⟨(first, second, third), threeWords_eq_some.mpr ⟨hfirst, hsecond, hthird⟩⟩

theorem mem_sitesAt (hwords : threeWords code a = some words) (hstop : a + 12 ≤ stop) :
    o ∈ sitesAt code a (stop - a) words.1 words.2.1 words.2.2 ↔
      Three code stop a ∧ o = a + 8 ∨ Four code a ∧ a + 12 < stop ∧ o = a + 12 := by
  obtain ⟨hfirst, hsecond, hthird⟩ := threeWords_eq_some.mp hwords
  have hthree : Three code stop a ↔ is843419Sequence words.1 words.2.1 words.2.2 = true := by
    simp [Three, hstop, hfirst, hsecond, hthird]
  have hfour : Four code a ↔ ∃ fourth, readInsn code (a + 12) = some fourth ∧
      is843419Sequence words.1 words.2.1 words.2.2 = false ∧ isBranch words.2.2 = false ∧
        is843419Sequence words.1 words.2.1 fourth = true := by
    simp [Four, hfirst, hsecond, hthird]
  rw [hthree, hfour, sitesAt]
  by_cases hseq : is843419Sequence words.1 words.2.1 words.2.2 = true
  · simp [hseq]
  · have hleft : stop - a > 12 ↔ a + 12 < stop := by omega
    rw [if_neg hseq]
    simp only [hleft]
    cases hfourth : readInsn code (a + 12) with
    | none => simp [hseq]
    | some fourth =>
      by_cases hgo : a + 12 < stop ∧ (!isBranch words.2.2) = true
      · rw [if_pos hgo]
        by_cases hlast : is843419Sequence words.1 words.2.1 fourth = true
        · have hbranch : isBranch words.2.2 = false := by simpa using hgo.2
          simp [hseq, hlast, hgo.1, hbranch]
        · simp [hseq, hlast]
      · rw [if_neg hgo]
        simp only [Bool.not_eq_true', not_and] at hgo
        simp [hseq]
        intro hbranch _ hlt
        exact absurd hbranch (hgo hlt)

/-- Between an offset and the next page end there is no page end. -/
theorem not_atPageEnd (haddress : address % 4 = 0) (h : AtPageEnd address a) (hle : offset ≤ a) :
    toPageEnd address offset ≤ a := by
  obtain ⟨haligned, hpage⟩ := h
  rw [toPageEnd, pageOffset_eq]
  split <;> omega

theorem atPageEnd_toPageEnd (haddress : address % 4 = 0) (hoffset : offset % 4 = 0) :
    AtPageEnd address (toPageEnd address offset) := by
  rw [AtPageEnd, toPageEnd, pageOffset_eq]
  split <;> omega

theorem advance_spec (haddress : address % 4 = 0) (h : AtPageEnd address a) :
    advance address a % 4 = 0 ∧ a + 4 ≤ advance address a ∧
      ∀ b, AtPageEnd address b → a ≤ b → b = a ∨ advance address a ≤ b := by
  obtain ⟨haligned, hpage⟩ := h
  rw [advance, pageOffset_eq]
  refine ⟨by split <;> omega, by split <;> omega, fun b hb hab => ?_⟩
  obtain ⟨hbaligned, hbpage⟩ := hb
  split <;> omega

theorem scanFrom_step (hlt : offset < stop) (hfits : toPageEnd address offset + 12 ≤ stop)
    (hwords : threeWords code (toPageEnd address offset) = some words) :
    scanFrom code address stop offset =
      sitesAt code (toPageEnd address offset) (stop - toPageEnd address offset) words.1 words.2.1
        words.2.2 ++ scanFrom code address stop (advance address (toPageEnd address offset)) := by
  rw [scanFrom, if_pos hlt]
  simp only [if_pos hfits, hwords]

theorem scanFrom_stop (h : ¬(offset < stop ∧ toPageEnd address offset + 12 ≤ stop)) :
    scanFrom code address stop offset = [] := by
  rw [scanFrom]
  by_cases hlt : offset < stop
  · rw [if_pos hlt]
    exact if_neg fun hfits => h ⟨hlt, hfits⟩
  · rw [if_neg hlt]

/-- **The scan finds what is recorded at the page ends.** -/
theorem mem_scanFrom (haddress : address % 4 = 0) (hstop : stop ≤ code.length)
    (hoffset : offset % 4 = 0) :
    o ∈ scanFrom code address stop offset ↔ ∃ a, offset ≤ a ∧ AtPageEnd address a ∧
      (Three code stop a ∧ o = a + 8 ∨ Four code a ∧ a + 12 < stop ∧ o = a + 12) := by
  induction hn : stop - offset using Nat.strongRecOn generalizing offset with
  | _ n ih =>
    have hle := le_toPageEnd address offset
    have hend := atPageEnd_toPageEnd haddress hoffset
    by_cases hgo : offset < stop ∧ toPageEnd address offset + 12 ≤ stop
    · obtain ⟨words, hwords⟩ := threeWords_isSome (hgo.2.trans hstop)
      obtain ⟨hadvance, hgt, hnext⟩ := advance_spec haddress hend
      rw [scanFrom_step hgo.1 hgo.2 hwords, List.mem_append, mem_sitesAt hwords hgo.2,
        ih _ (by omega) hadvance rfl]
      constructor
      · rintro (hhere | ⟨a, ha, hpage, hfound⟩)
        · exact ⟨_, hle, hend, hhere⟩
        · exact ⟨a, by omega, hpage, hfound⟩
      · rintro ⟨a, ha, hpage, hfound⟩
        obtain rfl | hlater := hnext a hpage (not_atPageEnd haddress hpage ha)
        · exact .inl hfound
        · exact .inr ⟨a, hlater, hpage, hfound⟩
    · rw [scanFrom_stop hgo]
      refine iff_of_false List.not_mem_nil ?_
      rintro ⟨a, ha, hpage, hfound⟩
      have := not_atPageEnd haddress hpage ha
      rcases hfound with ⟨⟨hthree, -⟩, -⟩ | ⟨-, hfour, -⟩ <;> omega

theorem not_isAdrp_of_isLoadStoreClass {insn : ℕ} (h : isLoadStoreClass insn = true) :
    isAdrp insn = false := by
  refine Bool.eq_false_iff.mpr fun hadrp => ?_
  have hclass := congrArg (fun w => bits w 27 1) (beq_iff_eq.mp h)
  have hbits := ((isAdrp_iff insn).mp hadrp).2
  simp only [bits_and, bits_ofNat] at hclass
  rw [bits] at hbits
  have hbit : bits insn 27 1 = 0 := by
    rw [bits]
    omega
  rw [hbit] at hclass
  cases hclass

/-- A sequence begins with an `adrp`, and a load or store follows. -/
theorem words_of_sequence {first second last : ℕ} (h : is843419Sequence first second last = true) :
    isAdrp first = true ∧ isAdrp second = false := by
  rw [is843419Sequence] at h
  by_cases hadrp : isAdrp first = true
  · simp only [hadrp, Bool.not_true, Bool.false_eq_true, if_false, Bool.and_eq_true] at h
    exact ⟨hadrp, not_isAdrp_of_isLoadStoreClass h.1.1.1.1⟩
  · simp [hadrp] at h

/-- Sequences do not follow one another by one word. -/
theorem not_sequence_next (h : Three code stop a ∨ Four code a) :
    ¬(Three code stop (a + 4) ∨ Four code (a + 4)) := by
  have hhere : ∃ second, readInsn code (a + 4) = some second ∧ isAdrp second = false := by
    rcases h with ⟨-, first, second, third, -, hsecond, -, hseq⟩ |
      ⟨first, second, third, fourth, -, hsecond, -, -, -, -, hseq⟩
    · exact ⟨second, hsecond, (words_of_sequence hseq).2⟩
    · exact ⟨second, hsecond, (words_of_sequence hseq).2⟩
  obtain ⟨second, hsecond, hnot⟩ := hhere
  rintro (⟨-, first, _, _, hfirst, -, -, hseq⟩ | ⟨first, _, _, _, hfirst, -, -, -, -, -, hseq⟩)
  all_goals
    rw [Option.some.inj (hsecond.symm.trans hfirst), (words_of_sequence hseq).1] at hnot
    cases hnot

theorem sitesAt_sorted (code : List UInt8) (offset left first second third : ℕ) :
    (sitesAt code offset left first second third).Pairwise (· < ·) := by
  rw [sitesAt]
  split
  · exact List.pairwise_singleton _ _
  · split
    · split
      · split
        · exact List.pairwise_singleton _ _
        · exact List.Pairwise.nil
      · exact List.Pairwise.nil
    · exact List.Pairwise.nil

/-- **The scan lists its sites in increasing order.** -/
theorem scanFrom_sorted (haddress : address % 4 = 0) (hstop : stop ≤ code.length)
    (hoffset : offset % 4 = 0) : (scanFrom code address stop offset).Pairwise (· < ·) := by
  induction hn : stop - offset using Nat.strongRecOn generalizing offset with
  | _ n ih =>
    have hle := le_toPageEnd address offset
    have hend := atPageEnd_toPageEnd haddress hoffset
    by_cases hgo : offset < stop ∧ toPageEnd address offset + 12 ≤ stop
    · obtain ⟨words, hwords⟩ := threeWords_isSome (hgo.2.trans hstop)
      obtain ⟨hadvance, hgt, -⟩ := advance_spec haddress hend
      rw [scanFrom_step hgo.1 hgo.2 hwords]
      refine List.pairwise_append.mpr ⟨sitesAt_sorted .., ih _ (by omega) hadvance rfl, ?_⟩
      intro o ho o' ho'
      obtain ⟨b, hb, hpage, hfound'⟩ := (mem_scanFrom haddress hstop hadvance).mp ho'
      rcases (mem_sitesAt hwords hgo.2).mp ho with ⟨hthree, rfl⟩ | ⟨hfour, -, rfl⟩
      · rcases hfound' with ⟨-, rfl⟩ | ⟨-, -, rfl⟩ <;> omega
      · rcases hfound' with ⟨hthree', rfl⟩ | ⟨-, -, rfl⟩
        · -- One word on, the sites would be the same, but the words cannot.
          have hne : b ≠ toPageEnd address offset + 4 := by
            rintro rfl
            exact not_sequence_next (.inr hfour) (.inl hthree')
          obtain ⟨hbaligned, -⟩ := hpage
          obtain ⟨haligned, -⟩ := hend
          omega
        · omega
    · rw [scanFrom_stop hgo]
      exact List.Pairwise.nil

/-- The scan is a plain scan, unless a sequence reaches across the end of the range. -/
theorem scan843419_exact_iff {start : ℕ} (haddress : address % 4 = 0) (hstart : start % 4 = 0) :
    (∀ o, o ∈ scan843419 code address start stop ↔
        Site code address start (min stop code.length) o) ↔
      ¬Overreaches code address start (min stop code.length) := by
  have hmem (o : ℕ) := mem_scanFrom (o := o) haddress
    (Nat.min_le_right stop code.length) hstart
  unfold scan843419
  generalize min stop code.length = e at hmem ⊢
  constructor
  · rintro hexact ⟨a, ha, hpage, hfour, hlt, hover⟩
    obtain ⟨b, hb, hbpage, hfound⟩ :=
      (hexact _).mp ((hmem _).mpr ⟨a, ha, hpage, .inr ⟨hfour, hlt, rfl⟩⟩)
    rcases hfound with ⟨⟨hthree, -⟩, heq⟩ | ⟨-, hfits, heq⟩ <;> omega
  · intro hover o
    rw [hmem]
    constructor
    · rintro ⟨a, ha, hpage, hthree | ⟨hfour, hlt, heq⟩⟩
      · exact ⟨a, ha, hpage, .inl hthree⟩
      · have hfits : a + 16 ≤ e := Nat.not_lt.mp fun h => hover ⟨a, ha, hpage, hfour, hlt, h⟩
        exact ⟨a, ha, hpage, .inr ⟨hfour, hfits, heq⟩⟩
    · rintro ⟨a, ha, hpage, hthree | ⟨hfour, hfits, heq⟩⟩
      · exact ⟨a, ha, hpage, .inl hthree⟩
      · exact ⟨a, ha, hpage, .inr ⟨hfour, by omega, heq⟩⟩

end Scan

end Qld.Arch.Aarch64

namespace Qld.Elf.Arch.Aarch64Errata

open Qld.Arch.Aarch64

/-! ### Code and data -/

section Ranges

variable {symbols : List Mapping} {p size : ℕ}

/-- The symbols are in the order of their values. -/
def Sorted (symbols : List Mapping) : Prop := symbols.Pairwise fun a b => a.1 ≤ b.1

/-- What the last mapping symbol at or before a byte starts: code or data. -/
def kindAt (symbols : List Mapping) (p : ℕ) : Option Bool :=
  ((symbols.filter fun symbol => symbol.1 ≤ p).getLast?).map Prod.snd

theorem runs_snoc (symbols : List Mapping) (symbol : Mapping) :
    runs (symbols ++ [symbol]) =
      if (runs symbols).getLast?.all fun last => last.2 != symbol.2 then runs symbols ++ [symbol]
      else runs symbols := by
  rw [runs, List.foldl_append]
  rfl

theorem runs_sublist (symbols : List Mapping) : (runs symbols).Sublist symbols := by
  induction symbols using List.reverseRecOn with
  | nil => exact List.Sublist.refl _
  | append_singleton symbols symbol ih =>
    rw [runs_snoc]
    split
    · exact ih.append (List.Sublist.refl _)
    · exact ih.trans (List.sublist_append_left _ _)

theorem kindAt_snoc (symbols : List Mapping) (symbol : Mapping) (p : ℕ) :
    kindAt (symbols ++ [symbol]) p = if symbol.1 ≤ p then some symbol.2 else kindAt symbols p := by
  rw [kindAt, List.filter_append]
  split
  · next hle =>
    rw [List.filter_cons, if_pos (decide_eq_true hle), List.filter_nil, List.getLast?_concat]
    rfl
  · next hgt =>
    rw [List.filter_cons, if_neg (by rwa [decide_eq_true_eq]), List.filter_nil, List.append_nil,
      kindAt]

theorem kindAt_runs (hsorted : Sorted symbols) (p : ℕ) :
    kindAt (runs symbols) p = kindAt symbols p := by
  induction symbols using List.reverseRecOn with
  | nil => rfl
  | append_singleton symbols symbol ih =>
    obtain ⟨hinit, -, hlast⟩ := List.pairwise_append.mp hsorted
    rw [runs_snoc, kindAt_snoc]
    split
    · rw [kindAt_snoc, ih hinit]
    · next hsame =>
      obtain ⟨last, hget, hkind⟩ : ∃ last, (runs symbols).getLast? = some last ∧
          last.2 = symbol.2 := by
        cases hget : (runs symbols).getLast? with
        | none => simp [hget] at hsame
        | some last => exact ⟨last, rfl, by simpa [hget] using hsame⟩
      split
      · next hle =>
        -- All runs start at or before the symbol, so that the last one counts.
        have hall : (runs symbols).filter (fun run => run.1 ≤ p) = runs symbols := by
          refine List.filter_eq_self.mpr fun run hrun => ?_
          have := hlast run ((runs_sublist symbols).subset hrun) symbol (List.mem_singleton_self _)
          exact decide_eq_true (this.trans hle)
        rw [kindAt, hall, hget, Option.map_some, hkind]
      · exact ih hinit

theorem kindAt_tail (hhead : symbols.head?.any (fun first => !first.2) = true) :
    kindAt symbols.tail p = some true ↔ kindAt symbols p = some true := by
  cases symbols with
  | nil => cases hhead
  | cons first rest =>
    have hdata : first.2 = false := by simpa using hhead
    rw [List.tail_cons, kindAt, kindAt, List.filter_cons]
    split
    · cases hrest : rest.filter fun symbol => symbol.1 ≤ p with
      | nil => simp [hdata]
      | cons second others => rw [List.getLast?_cons_cons]
    · rfl

/-- The last symbol at or before a byte is the one whose successor is behind it. -/
theorem kindAt_eq_some_iff (hsorted : Sorted symbols) (kind : Bool) :
    kindAt symbols p = some kind ↔ ∃ i start, symbols[i]? = some (start, kind) ∧ start ≤ p ∧
      ∀ next, symbols[i + 1]? = some next → p < next.1 := by
  induction symbols with
  | nil => simp [kindAt]
  | cons first rest ih =>
    obtain ⟨hfirst, hrest⟩ := List.pairwise_cons.mp hsorted
    have ih := ih hrest
    by_cases hle : first.1 ≤ p
    · cases rest with
      | nil =>
        simp only [kindAt, List.filter_cons, hle, decide_true, if_true, List.filter_nil]
        constructor
        · rintro h
          refine ⟨0, first.1, ?_, hle, fun next hnext => ?_⟩
          · rw [← Option.some.inj h]
            rfl
          · cases hnext
        · rintro ⟨i, start, hget, -, -⟩
          cases i with
          | zero =>
            obtain rfl := Option.some.inj hget
            rfl
          | succ i => cases hget
      | cons second others =>
        by_cases hsecond : second.1 ≤ p
        · have hkind : kindAt (first :: second :: others) p = kindAt (second :: others) p := by
            simp [kindAt, hle, hsecond]
          rw [hkind, ih]
          constructor
          · rintro ⟨i, start, hget, hstart, hnext⟩
            exact ⟨i + 1, start, hget, hstart, hnext⟩
          · rintro ⟨i, start, hget, hstart, hnext⟩
            cases i with
            | zero =>
              have := hnext second rfl
              omega
            | succ i => exact ⟨i, start, hget, hstart, hnext⟩
        · have hnone : (second :: others).filter (fun symbol => symbol.1 ≤ p) = [] := by
            refine List.filter_eq_nil_iff.mpr fun other hother => ?_
            have hge : second.1 ≤ other.1 := by
              rcases List.mem_cons.mp hother with rfl | hother
              · exact Nat.le_refl _
              · exact (List.pairwise_cons.mp hrest).1 other hother
            rw [decide_eq_true_eq]
            omega
          have hkind : kindAt (first :: second :: others) p = some first.2 := by
            rw [kindAt, List.filter_cons, if_pos (by simpa using hle), hnone]
            rfl
          rw [hkind]
          constructor
          · rintro h
            refine ⟨0, first.1, ?_, hle, fun next hnext => ?_⟩
            · rw [← Option.some.inj h]
              rfl
            · obtain rfl := Option.some.inj hnext
              omega
          · rintro ⟨i, start, hget, hstart, hnext⟩
            cases i with
            | zero =>
              obtain rfl := Option.some.inj hget
              rfl
            | succ i =>
              have hmem : (start, kind) ∈ second :: others := List.mem_of_getElem? (i := i) hget
              exact absurd (decide_eq_true hstart)
                (List.filter_eq_nil_iff.mp hnone (start, kind) hmem)
    · have hnone (symbol : Mapping) (hmem : symbol ∈ first :: rest) : ¬symbol.1 ≤ p := by
        rcases List.mem_cons.mp hmem with rfl | hmem
        · exact hle
        · have := hfirst symbol hmem
          omega
      have hfilter : (first :: rest).filter (fun symbol => symbol.1 ≤ p) = [] :=
        List.filter_eq_nil_iff.mpr fun symbol hmem => by simpa using hnone symbol hmem
      rw [kindAt, hfilter]
      refine iff_of_false (fun h => by cases h) ?_
      rintro ⟨i, start, hget, hstart, -⟩
      exact hnone _ (List.mem_of_getElem? hget) hstart

/-- **The code ranges are the bytes that a `$x` precedes.** -/
theorem mem_codeRanges_iff (hsorted : Sorted symbols) (hp : p < size) :
    (∃ range ∈ codeRanges symbols size, range.1 ≤ p ∧ p < range.2) ↔
      kindAt symbols p = some true := by
  obtain ⟨kept, hkept⟩ : ∃ kept, kept =
      if (runs symbols).head?.any (fun first => !first.2) then (runs symbols).tail
      else runs symbols := ⟨_, rfl⟩
  have hruns : Sorted (runs symbols) := hsorted.sublist (runs_sublist symbols)
  have hkeptSorted : Sorted kept := by
    rw [hkept]
    split
    · exact hruns.sublist (List.tail_sublist _)
    · exact hruns
  have hkind : kindAt kept p = some true ↔ kindAt symbols p = some true := by
    rw [← kindAt_runs hsorted, hkept]
    split
    · next hhead => exact kindAt_tail hhead
    · exact Iff.rfl
  rw [← hkind, kindAt_eq_some_iff hkeptSorted, codeRanges, ← hkept]
  constructor
  · rintro ⟨range, hrange, hle, hlt⟩
    obtain ⟨run, hrun, rfl⟩ := List.mem_map.mp hrange
    obtain ⟨hrun, hcode⟩ := List.mem_filter.mp hrun
    have hget := List.mem_zipIdx_iff_getElem?.mp hrun
    refine ⟨run.2, run.1.1, ?_, hle, fun next hnext => ?_⟩
    · rw [hget]
      exact congrArg some (Prod.ext rfl hcode)
    · rw [hnext] at hlt
      exact (Nat.lt_min.mp hlt).1
  · rintro ⟨i, start, hget, hle, hnext⟩
    refine ⟨(start, min ((kept[i + 1]?).elim size Prod.fst) size), ?_, hle, Nat.lt_min.mpr ⟨?_, hp⟩⟩
    · refine List.mem_map.mpr ⟨((start, true), i), List.mem_filter.mpr ⟨?_, rfl⟩, rfl⟩
      exact List.mem_zipIdx_iff_getElem?.mpr hget
    · cases hafter : kept[i + 1]? with
      | none => exact hp
      | some next => exact hnext next hafter

end Ranges

/-- **The scan that hops from page end to page end is a plain scan of the code, up to sequences that
reach across the end of a range (proved).** -/
theorem scan_exact_iff (code : List UInt8) (address start stop : ℕ) (haddress : address % 4 = 0)
    (hstart : start % 4 = 0) :
    (((scan843419 code address start stop).Pairwise (· < ·) ∧
        ∀ o, o ∈ scan843419 code address start stop ↔
          Site code address start (min stop code.length) o) ↔
      ¬Overreaches code address start (min stop code.length)) ∧
      ∀ (symbols : List Mapping) (size p : ℕ), Sorted symbols → p < size →
        ((∃ range ∈ codeRanges symbols size, range.1 ≤ p ∧ p < range.2) ↔
          kindAt symbols p = some true) := by
  refine ⟨?_, fun symbols size p hsorted hp => ?_⟩
  · rw [← scan843419_exact_iff haddress hstart]
    exact ⟨fun h => h.2, fun h =>
      ⟨scanFrom_sorted haddress (Nat.min_le_right _ _) hstart, h⟩⟩
  · exact mem_codeRanges_iff hsorted hp

/-- `adrp x0`, `ldr x1, [x2]`, `nop`, `ldr x3, [x0]`. -/
def fourWords : List UInt8 :=
  [0, 0, 0, 0x90, 0x41, 0, 0x40, 0xf9, 0x1f, 0x20, 0x03, 0xd5, 0x03, 0, 0x40, 0xf9]

theorem four_fourWords : Four fourWords 0 :=
  ⟨0x90000000, 0xf9400041, 0xd503201f, 0xf9400003, rfl, rfl, rfl, rfl, rfl, rfl, rfl⟩

/-- The whole of the sequence is in the range. -/
theorem scan_fourWords :
    (scan843419 fourWords 0xff8 0 16).Pairwise (· < ·) ∧
      ∀ o, o ∈ scan843419 fourWords 0xff8 0 16 ↔ Site fourWords 0xff8 0 16 o :=
  (scan_exact_iff fourWords 0xff8 0 16 (by decide) (by decide)).1.mpr (by
    rintro ⟨a, -, ⟨haligned, -⟩, -, hlt, hover⟩
    rw [show min 16 fourWords.length = 16 from rfl] at hlt hover
    omega)

/-- The range ends in the last word of the sequence, which is found all the same. -/
theorem scan_fourWords_across :
    12 ∈ scan843419 fourWords 0xff8 0 13 ∧
      ¬Site fourWords 0xff8 0 (min 13 fourWords.length) 12 := by
  rw [show min 13 fourWords.length = 13 from rfl]
  refine ⟨(mem_scanFrom (by decide) (by decide) (by decide)).mpr
    ⟨0, Nat.le_refl 0, ⟨rfl, .inl rfl⟩, .inr ⟨four_fourWords, by decide, rfl⟩⟩, ?_⟩
  rintro ⟨a, -, ⟨haligned, -⟩, ⟨⟨hthree, -⟩, heq⟩ | ⟨-, hfits, heq⟩⟩ <;> omega

end Qld.Elf.Arch.Aarch64Errata
