import Mathlib.Data.List.Sort
import Qld.Lib.SortedGroups
import Qld.Elf.Word

/-!
# Packed relative relocations

The model of `.relr.dyn`: `relr_addresses` and `encode_relr` of `elf/write.rs`, the words that
`write_synthetic_as` writes, and the loop of `elf/link.rs` that finds the section's size.  Addresses
are natural numbers; the arithmetic of the source is on 64 bits, that of a reader on the words of
the ELF class.

* `encodeRelr` — the encoder; `decodeRelr` — the rules of `SHT_RELR`;
* `gatherBitmap_spec`, `bitmapWords_decode` — what one bitmap, and one run of bitmaps,
  stands for;
* `decodeRelr_encodeRelr` — decoding gives the addresses back, also with padding;
* `relrLoop_spec` — what the size loop keeps;
* `relr_lossless` — no relative relocation is lost.
-/

namespace Qld.Elf

open Qld.Lib

/-! ### The encoder -/

/-- The bitmap of the places from `base` on, and the places after it. -/
def gatherBitmap (word span base : ℕ) : List ℕ → ℕ → ℕ × List ℕ
  | [], bitmap => (bitmap, [])
  | place :: places, bitmap =>
    let delta := wrappingSub place base
    if place < base ∨ span ≤ delta ∨ delta % word ≠ 0 then (bitmap, place :: places)
    else gatherBitmap word span base places (bitmap ||| 1 <<< (delta / word))

theorem gatherBitmap_length (word span base : ℕ) (places : List ℕ) (bitmap : ℕ) :
    (gatherBitmap word span base places bitmap).2.length ≤ places.length ∧
      ((gatherBitmap word span base places bitmap).1 ≠ bitmap →
        (gatherBitmap word span base places bitmap).2.length < places.length) := by
  induction places generalizing bitmap with
  | nil => exact ⟨le_rfl, fun h => absurd rfl h⟩
  | cons place places ih =>
    rw [gatherBitmap]
    split
    · exact ⟨le_rfl, fun h => absurd rfl h⟩
    · have hle := (ih (bitmap ||| 1 <<< (wrappingSub place base / word))).1
      rw [List.length_cons]
      exact ⟨by omega, fun _ => by omega⟩

/-- The bitmaps that follow an address, from `base` on, and the places after them. -/
def bitmapWords (word span base : ℕ) (places : List ℕ) : List ℕ × List ℕ :=
  let gathered := gatherBitmap word span base places 0
  if h : gathered.1 = 0 then ([], gathered.2)
  else
    let rest := bitmapWords word span ((base + span) % 2 ^ 64) gathered.2
    ((gathered.1 <<< 1 ||| 1) :: rest.1, rest.2)
termination_by places.length
decreasing_by exact (gatherBitmap_length word span base places 0).2 h

theorem bitmapWords_length (word span base : ℕ) (places : List ℕ) :
    (bitmapWords word span base places).1.length + (bitmapWords word span base places).2.length ≤
      places.length := by
  fun_induction bitmapWords word span base places with
  | case1 base places gathered h =>
    rw [List.length_nil, Nat.zero_add]
    exact (gatherBitmap_length word span base places 0).1
  | case2 base places gathered h rest ih =>
    have hless : gathered.2.length < places.length :=
      (gatherBitmap_length word span base places 0).2 h
    show rest.1.length + 1 + rest.2.length ≤ places.length
    change rest.1.length + rest.2.length ≤ gathered.2.length at ih
    omega

/-- Encodes sorted, even relocation addresses as `SHT_RELR` words: an address entry, then bitmaps
of the following words, repeatedly. -/
def encodeRelr (kind : ElfKind) : List ℕ → List ℕ
  | [] => []
  | start :: places =>
    let run := bitmapWords kind.wordSize kind.relrSpan ((start + kind.wordSize) % 2 ^ 64) places
    start :: (run.1 ++ encodeRelr kind run.2)
termination_by places => places.length
decreasing_by
  rw [List.length_cons]
  exact Nat.lt_succ_of_le ((Nat.le_add_left _ _).trans (bitmapWords_length ..))

/-! ### The format -/

/-- The addresses of a bitmap word. -/
def bitmapAddresses (kind : ElfKind) (base w : ℕ) : List ℕ :=
  ((List.range kind.relrBits).filter fun j => w.testBit (j + 1)).map fun j =>
    (base + j * kind.wordSize) % kind.top

/-- The rules of `SHT_RELR`: an even word is an address, an odd one a bitmap of the words that
follow. -/
def decodeRelr (kind : ElfKind) : ℕ → List ℕ → List ℕ
  | _, [] => []
  | base, w :: words =>
    if w % 2 = 0 then w :: decodeRelr kind ((w + kind.wordSize) % kind.top) words
    else bitmapAddresses kind base w ++
      decodeRelr kind ((base + kind.relrSpan) % kind.top) words

/-- Addresses that `.relr.dyn` can hold: even, increasing, and a bitmap below the top. -/
structure Packable (kind : ElfKind) (places : List ℕ) : Prop where
  sorted : places.Pairwise (· < ·)
  even : ∀ p ∈ places, p % 2 = 0
  below : ∀ p ∈ places, p + kind.relrSpan ≤ kind.top

/-! ### A bitmap -/

section Bitmap

variable {kind : ElfKind}

namespace ElfKind

theorem wordSize_pos : 0 < kind.wordSize := by cases kind <;> decide

theorem wordSize_le_span : kind.wordSize ≤ kind.relrSpan := by cases kind <;> decide

theorem two_span_le_top : 2 * kind.relrSpan ≤ kind.top := by cases kind <;> decide

theorem top_le : kind.top ≤ 2 ^ 64 := by cases kind <;> decide

end ElfKind

theorem testBit_or_bit (bitmap k j : ℕ) :
    (bitmap ||| 1 <<< k).testBit j = true ↔ bitmap.testBit j = true ∨ k = j := by
  rw [Nat.testBit_or, Bool.or_eq_true, Nat.one_shiftLeft, Nat.testBit_two_pow, decide_eq_true_eq]

/-- **One bitmap.**  It takes places off the front, all of them words from `base` on within
the span, and has a bit for each. -/
theorem gatherBitmap_spec {word span base : ℕ} (places : List ℕ) (hlt : ∀ p ∈ places, p < 2 ^ 64)
    (bitmap : ℕ) :
    ∃ taken, places = taken ++ (gatherBitmap word span base places bitmap).2 ∧
      (∀ p ∈ taken, base ≤ p ∧ p - base < span ∧ (p - base) % word = 0) ∧
      ∀ j, (gatherBitmap word span base places bitmap).1.testBit j = true ↔
        bitmap.testBit j = true ∨ ∃ p ∈ taken, (p - base) / word = j := by
  induction places generalizing bitmap with
  | nil => exact ⟨[], rfl, by simp, by simp [gatherBitmap]⟩
  | cons place places ih =>
    rw [gatherBitmap]
    split
    · exact ⟨[], rfl, by simp, by simp⟩
    · next hcond =>
      rw [not_or, not_or, not_lt, not_le, not_not] at hcond
      obtain ⟨hbase, hspan, hrem⟩ := hcond
      rw [wrappingSub_of_le hbase (hlt place List.mem_cons_self)] at hspan hrem ⊢
      obtain ⟨taken, hplaces, htaken, hbits⟩ :=
        ih (fun p hp => hlt p (List.mem_cons_of_mem _ hp)) (bitmap ||| 1 <<< ((place - base) / word))
      refine ⟨place :: taken, ?_, ?_, fun j => ?_⟩
      · rw [List.cons_append, ← hplaces]
      · intro p hp
        rcases List.mem_cons.mp hp with rfl | hp
        · exact ⟨hbase, hspan, hrem⟩
        · exact htaken p hp
      · rw [hbits, testBit_or_bit, or_assoc]
        simp only [List.mem_cons, exists_eq_or_imp]

theorem testBit_bitmapWord (bitmap j : ℕ) :
    (bitmap <<< 1 ||| 1).testBit (j + 1) = bitmap.testBit j := by
  rw [Nat.testBit_or, Nat.testBit_shiftLeft, Nat.add_sub_cancel]
  simp [Nat.testBit_succ]

theorem bitmapWord_odd (bitmap : ℕ) : (bitmap <<< 1 ||| 1) % 2 = 1 := by
  have h : (bitmap <<< 1 ||| 1).testBit 0 = true := by simp
  rwa [Nat.testBit_zero, decide_eq_true_eq] at h

/-- **A bitmap word stands for the places it took.** -/
theorem bitmapAddresses_eq {base bitmap : ℕ} {taken : List ℕ} (hsorted : taken.Pairwise (· < ·))
    (htaken : ∀ p ∈ taken,
      base ≤ p ∧ p - base < kind.relrSpan ∧ (p - base) % kind.wordSize = 0)
    (hlt : ∀ p ∈ taken, p < kind.top)
    (hbits : ∀ j, bitmap.testBit j = true ↔ ∃ p ∈ taken, (p - base) / kind.wordSize = j) :
    bitmapAddresses kind base (bitmap <<< 1 ||| 1) = taken := by
  have hword := kind.wordSize_pos
  -- A set bit gives the place back, so nothing wraps.
  have hplace : ∀ p ∈ taken, base + (p - base) / kind.wordSize * kind.wordSize = p := by
    intro p hp
    obtain ⟨hle, -, hrem⟩ := htaken p hp
    rw [Nat.div_mul_cancel (Nat.dvd_of_mod_eq_zero hrem)]
    omega
  rw [bitmapAddresses]
  simp only [testBit_bitmapWord]
  have hmap : ((List.range kind.relrBits).filter fun j => bitmap.testBit j).map
      (fun j => (base + j * kind.wordSize) % kind.top) =
      ((List.range kind.relrBits).filter fun j => bitmap.testBit j).map
        fun j => base + j * kind.wordSize := by
    refine List.map_congr_left fun j hj => ?_
    obtain ⟨p, hp, rfl⟩ := (hbits j).mp (List.mem_filter.mp hj).2
    rw [hplace p hp, Nat.mod_eq_of_lt (hlt p hp)]
  rw [hmap]
  refine List.Pairwise.eq_of_mem_iff (r := (· < ·)) ?_ hsorted fun p => ?_
  · refine List.pairwise_map.mpr ((List.pairwise_lt_range.filter _).imp fun {j k} hjk => ?_)
    exact Nat.add_lt_add_left (Nat.mul_lt_mul_of_pos_right hjk hword) base
  · rw [List.mem_map]
    constructor
    · intro ⟨j, hj, hp⟩
      obtain ⟨q, hq, rfl⟩ := (hbits j).mp (List.mem_filter.mp hj).2
      rwa [← hp, hplace q hq]
    · intro hp
      refine ⟨_, List.mem_filter.mpr ⟨?_, (hbits _).mpr ⟨p, hp, rfl⟩⟩, hplace p hp⟩
      rw [List.mem_range, Nat.div_lt_iff_lt_mul hword]
      exact (htaken p hp).2.1

end Bitmap

/-! ### The whole encoding -/

section Encoding

variable {kind : ElfKind}

variable {places : List ℕ}

theorem Packable.lt_top (h : Packable kind places) {p : ℕ} (hp : p ∈ places) :
    p < kind.top := by
  have hspan := kind.wordSize_le_span
  have hword := kind.wordSize_pos
  have := h.below p hp
  omega

theorem Packable.of_append {taken rest : List ℕ} (h : Packable kind (taken ++ rest)) :
    Packable kind taken ∧ Packable kind rest := by
  have hsorted := List.pairwise_append.mp h.sorted
  exact ⟨⟨hsorted.1, fun p hp => h.even p (List.mem_append_left _ hp),
      fun p hp => h.below p (List.mem_append_left _ hp)⟩,
    ⟨hsorted.2.1, fun p hp => h.even p (List.mem_append_right _ hp),
      fun p hp => h.below p (List.mem_append_right _ hp)⟩⟩

variable {base : ℕ}

/-- **A run of bitmaps.**  `next` is where the run starts, before the source's arithmetic
wraps it to `base`. -/
theorem bitmapWords_decode (tail : List ℕ) {next : ℕ} (h : Packable kind places)
    (hbase : base = next % 2 ^ 64) (hnext : next ≤ kind.top)
    (hnear : ∀ p ∈ places, next ≤ p + kind.relrSpan) :
    ∃ taken base', places = taken ++ (bitmapWords kind.wordSize kind.relrSpan base places).2 ∧
      decodeRelr kind (next % kind.top)
          ((bitmapWords kind.wordSize kind.relrSpan base places).1 ++ tail) =
        taken ++ decodeRelr kind base' tail := by
  have hword := kind.wordSize_pos
  have hspan := kind.wordSize_le_span
  have hroom := kind.two_span_le_top
  have htop := kind.top_le
  generalize hlen : places.length = n
  induction n using Nat.strong_induction_on generalizing places base next with
  | _ n ih =>
    subst hlen
    obtain ⟨taken, hplaces, htaken, hbits⟩ := @gatherBitmap_spec kind.wordSize kind.relrSpan base
      places (fun p hp => (h.lt_top hp).trans_le htop) 0
    have hless := (gatherBitmap_length kind.wordSize kind.relrSpan base places 0).2
    rw [bitmapWords]
    simp only [Nat.zero_testBit, Bool.false_eq_true, false_or] at hbits
    generalize gatherBitmap kind.wordSize kind.relrSpan base places 0 = gathered at *
    by_cases hzero : gathered.1 = 0
    · -- No bit is set, so no place was taken.
      rw [dif_pos hzero]
      have hnil : taken = [] := by
        rw [List.eq_nil_iff_forall_not_mem]
        intro p hp
        have hbit := (hbits _).mpr ⟨p, hp, rfl⟩
        rw [hzero, Nat.zero_testBit] at hbit
        exact absurd hbit Bool.false_ne_true
      rw [hnil] at hplaces
      exact ⟨[], next % kind.top, hplaces, rfl⟩
    · rw [dif_neg hzero]
      obtain ⟨p, hp⟩ : ∃ p, p ∈ taken := by
        by_contra hnone
        refine hzero (Nat.eq_of_testBit_eq fun j => ?_)
        rw [Nat.zero_testBit, Bool.eq_false_iff]
        intro hbit
        obtain ⟨p, hp, -⟩ := (hbits j).mp hbit
        exact hnone ⟨p, hp⟩
      rw [hplaces] at h
      obtain ⟨htook, hrest⟩ := h.of_append
      have hpmem : p ∈ places := hplaces ▸ List.mem_append_left _ hp
      have hbelow := htook.below p hp
      -- At the top of the address space `base` wraps to zero, but then nothing is near it.
      have hsame : base = next := by
        have := (htaken p hp).2.1
        have := hnear p hpmem
        rw [hbase]
        omega
      subst hsame
      have hle := (htaken p hp).1
      have hlt : base < kind.top := hle.trans_lt (htook.lt_top hp)
      have hafter : ∀ q ∈ gathered.2, base + kind.relrSpan ≤ q + kind.relrSpan := by
        intro q hq
        have := (List.pairwise_append.mp h.sorted).2.2 p hp q hq
        omega
      obtain ⟨taken', base', hplaces', hdecode⟩ := ih gathered.2.length (hless hzero) hrest
        (rfl : (base + kind.relrSpan) % 2 ^ 64 = _) (by omega) hafter rfl
      refine ⟨taken ++ taken', base', ?_, ?_⟩
      · rw [List.append_assoc, ← hplaces', ← hplaces]
      · rw [List.cons_append, decodeRelr, if_neg (by rw [bitmapWord_odd]; decide),
          Nat.mod_eq_of_lt hlt, hdecode, List.append_assoc,
          bitmapAddresses_eq htook.sorted htaken (fun q hq => htook.lt_top hq) hbits]

theorem decodeRelr_padding (base n : ℕ) : decodeRelr kind base (List.replicate n 1) = [] := by
  induction n generalizing base with
  | zero => rfl
  | succ n ih =>
    rw [List.replicate_succ, decodeRelr, if_neg (by decide), ih, List.append_nil, bitmapAddresses]
    have hnone : ∀ j, Nat.testBit 1 (j + 1) = false := fun j => by simp [Nat.testBit_succ]
    simp [hnone]

/-- **Decoding gives the addresses back.** -/
theorem decodeRelr_encodeRelr (h : Packable kind places) (base n : ℕ) :
    decodeRelr kind base (encodeRelr kind places ++ List.replicate n 1) = places := by
  have hspan := kind.wordSize_le_span
  have htop := kind.top_le
  fun_induction encodeRelr kind places generalizing base with
  | case1 => exact decodeRelr_padding base n
  | case2 start places run ih =>
    have hbelow := h.below start List.mem_cons_self
    have hplaces : Packable kind places :=
      (show Packable kind ([start] ++ places) from h).of_append.2
    have hnear : ∀ p ∈ places, start + kind.wordSize ≤ p + kind.relrSpan := by
      intro p hp
      have := (List.pairwise_cons.mp h.sorted).1 p hp
      omega
    obtain ⟨taken, base', hrun, hdecode⟩ := bitmapWords_decode
      (encodeRelr kind run.2 ++ List.replicate n 1) hplaces
      (rfl : (start + kind.wordSize) % 2 ^ 64 = _) (by omega) hnear
    rw [List.cons_append, decodeRelr, if_pos (h.even start List.mem_cons_self), List.append_assoc,
      hdecode, ih (hrun ▸ hplaces).of_append.2, ← hrun]

theorem bitmapWords_subset (hlt : ∀ p ∈ places, p < 2 ^ 64) :
    ∀ p ∈ (bitmapWords kind.wordSize kind.relrSpan base places).2, p ∈ places := by
  fun_induction bitmapWords kind.wordSize kind.relrSpan base places with
  | case1 base places gathered h =>
    intro p hp
    obtain ⟨taken, hplaces, -⟩ := @gatherBitmap_spec kind.wordSize kind.relrSpan base places hlt 0
    rw [hplaces]
    exact List.mem_append_right _ hp
  | case2 base places gathered h rest ih =>
    intro p hp
    obtain ⟨taken, hplaces, -⟩ := @gatherBitmap_spec kind.wordSize kind.relrSpan base places hlt 0
    have hsub : ∀ q ∈ gathered.2, q ∈ places := fun q hq => hplaces ▸ List.mem_append_right _ hq
    exact hsub p (ih (fun q hq => hlt q (hsub q hq)) p hp)

/-- The words of a run of bitmaps fit the word size. -/
theorem bitmapWords_lt_top (hlt : ∀ p ∈ places, p < 2 ^ 64) :
    ∀ w ∈ (bitmapWords kind.wordSize kind.relrSpan base places).1, w < kind.top := by
  have hword := kind.wordSize_pos
  fun_induction bitmapWords kind.wordSize kind.relrSpan base places with
  | case1 base places gathered h => exact fun w hw => absurd hw List.not_mem_nil
  | case2 base places gathered h rest ih =>
    obtain ⟨taken, hplaces, htaken, hbits⟩ :=
      @gatherBitmap_spec kind.wordSize kind.relrSpan base places hlt 0
    have hwords := ih fun p hp => hlt p (hplaces ▸ List.mem_append_right _ hp)
    intro w hw
    rcases List.mem_cons.mp hw with rfl | hw
    · have hsmall : gathered.1 < 2 ^ kind.relrBits := by
        refine Nat.lt_pow_two_of_testBit _ fun j hj => ?_
        rw [Bool.eq_false_iff]
        intro hbit
        obtain ⟨p, hp, hdiv⟩ := ((hbits j).mp hbit).resolve_left (by simp)
        have hdiv' : (p - base) / kind.wordSize < kind.relrBits :=
          (Nat.div_lt_iff_lt_mul hword).mpr (htaken p hp).2.1
        omega
      have htop : kind.top = 2 ^ (kind.relrBits + 1) := by cases kind <;> rfl
      rw [htop]
      refine Nat.or_lt_two_pow ?_ (Nat.one_lt_two_pow (Nat.succ_ne_zero _))
      rw [Nat.shiftLeft_eq, pow_one, pow_succ]
      omega
    · exact hwords w hw

theorem encodeRelr_lt_top (hlt : ∀ p ∈ places, p < kind.top) :
    ∀ w ∈ encodeRelr kind places, w < kind.top := by
  have htop := kind.top_le
  fun_induction encodeRelr kind places with
  | case1 => exact fun w hw => absurd hw List.not_mem_nil
  | case2 start places run ih =>
    have hplaces : ∀ p ∈ places, p < 2 ^ 64 := fun p hp =>
      (hlt p (List.mem_cons_of_mem _ hp)).trans_le htop
    intro w hw
    rcases List.mem_cons.mp hw with rfl | hw
    · exact hlt w List.mem_cons_self
    · rcases List.mem_append.mp hw with hw | hw
      · exact bitmapWords_lt_top hplaces w hw
      · exact ih (fun p hp => hlt p (List.mem_cons_of_mem _ (bitmapWords_subset hplaces p hp))) w hw

theorem encodeRelr_length (places : List ℕ) :
    (encodeRelr kind places).length ≤ places.length := by
  fun_induction encodeRelr kind places with
  | case1 => exact le_rfl
  | case2 start places run ih =>
    have hrun : run.1.length + run.2.length ≤ places.length := bitmapWords_length _ _ _ _
    rw [List.length_cons, List.length_append, List.length_cons]
    omega

end Encoding

/-! ### The size of the section -/

/-- One dynamic relocation before it is encoded: where it applies, and whether `.relr.dyn` can hold
it. -/
structure DynReloc where
  offset : ℕ
  packable : Bool
  deriving DecidableEq, Repr

/-- The relocations as a vector, of at most `isize::MAX` bytes. -/
abbrev RelocVec := {relocs : List DynReloc // relocs.length * 8 < 2 ^ 63}

/-- The addresses of the relative relocations `.relr.dyn` holds, sorted. -/
def relrAddresses (relocs : RelocVec) : List ℕ :=
  dedupAdjacent (((relocs.val.filter DynReloc.packable).map DynReloc.offset).insertionSort (· ≤ ·))

/-- The size of an encoding in bytes. -/
def relrBytes (kind : ElfKind) (relr : List ℕ) : ℕ :=
  min (min relr.length U64_MAX * kind.wordSize) U64_MAX

/-- Why a link fails: an internal error, or an error of the layout. -/
inductive LinkError (ε : Type) where
  | internal (message : String)
  | layout (error : ε)
  deriving DecidableEq, Repr

section Loop

variable {ε L : Type} (kind : ElfKind) (layout : ℕ → Except ε L) (collect : L → RelocVec)

/-- The loop that lays out with the size of `.relr.dyn` until the encoding fits; `left` attempts
remain after this one.  `layout` is the layout for a size of the section, `collect` the relocations
at its addresses. -/
def relrLoop : ℕ → Bool → ℕ → L → Except (LinkError ε) (List ℕ × ℕ × L)
  | left, shrunk, relrSize, current =>
    let relr := encodeRelr kind (relrAddresses (collect current))
    let size := relrBytes kind relr
    if size = relrSize ∨ (size < relrSize ∧ shrunk = true) then .ok (relr, relrSize, current)
    else
      match left with
      | 0 =>
        if size ≤ relrSize then .ok (relr, relrSize, current)
        else .error (.internal ".relr.dyn size did not converge")
      | left + 1 =>
        match layout size with
        | .error e => .error (.layout e)
        | .ok next => relrLoop left (shrunk || decide (size < relrSize)) size next

/-- The words that are written to the section, of `bytes` bytes. -/
def writeRelrDyn (relr : List ℕ) (bytes : ℕ) : List ℕ :=
  (List.range (bytes / kind.wordSize)).map fun i => relr.getD i 1 % kind.top

end Loop

section Correct

variable {ε L : Type} {kind : ElfKind} {layout : ℕ → Except ε L} {collect : L → RelocVec}

/-- **What the loop keeps.** -/
theorem relrLoop_spec {left : ℕ} {shrunk : Bool} {relrSize : ℕ} {current : L}
    (hcurrent : layout relrSize = .ok current) {relr : List ℕ} {size : ℕ} {kept : L}
    (h : relrLoop kind layout collect left shrunk relrSize current = .ok (relr, size, kept)) :
    layout size = .ok kept ∧ relr = encodeRelr kind (relrAddresses (collect kept)) ∧
      relrBytes kind relr ≤ size := by
  induction left generalizing shrunk relrSize current with
  | zero =>
    rw [relrLoop] at h
    split at h
    · next hfits =>
      simp only [Except.ok.injEq, Prod.mk.injEq] at h
      obtain ⟨rfl, rfl, rfl⟩ := h
      exact ⟨hcurrent, rfl, hfits.elim le_of_eq fun hlt => hlt.1.le⟩
    · split at h
      · next hfits =>
        simp only [Except.ok.injEq, Prod.mk.injEq] at h
        obtain ⟨rfl, rfl, rfl⟩ := h
        exact ⟨hcurrent, rfl, hfits⟩
      · exact absurd h (by simp)
  | succ left ih =>
    rw [relrLoop] at h
    split at h
    · next hfits =>
      simp only [Except.ok.injEq, Prod.mk.injEq] at h
      obtain ⟨rfl, rfl, rfl⟩ := h
      exact ⟨hcurrent, rfl, hfits.elim le_of_eq fun hlt => hlt.1.le⟩
    · split at h
      · exact absurd h (by simp)
      · next next hnext => exact ih hnext h

theorem relrAddresses_sorted (relocs : RelocVec) : (relrAddresses relocs).Pairwise (· < ·) :=
  dedupAdjacent_sorted (List.pairwise_insertionSort _ _)

theorem mem_relrAddresses {relocs : RelocVec} {p : ℕ} :
    p ∈ relrAddresses relocs ↔ ∃ r ∈ relocs.val, r.packable = true ∧ r.offset = p := by
  rw [relrAddresses, mem_dedupAdjacent, (List.perm_insertionSort _ _).mem_iff, List.mem_map]
  simp only [List.mem_filter, and_assoc]

theorem relrAddresses_length (relocs : RelocVec) :
    (relrAddresses relocs).length ≤ relocs.val.length := by
  refine (dedupAdjacent_length _).trans ?_
  rw [List.length_insertionSort, List.length_map]
  exact List.length_filter_le _ _

theorem relrBytes_eq (relocs : RelocVec) :
    relrBytes kind (encodeRelr kind (relrAddresses relocs)) =
      (encodeRelr kind (relrAddresses relocs)).length * kind.wordSize := by
  have hlen := (@encodeRelr_length kind _).trans (relrAddresses_length relocs)
  have hvec := relocs.property
  have hword : kind.wordSize ≤ 8 := by cases kind <;> decide
  rw [relrBytes, U64_MAX]
  generalize (encodeRelr kind (relrAddresses relocs)).length = n at *
  have hsize : n * kind.wordSize ≤ n * 8 := Nat.mul_le_mul_left n hword
  rw [Nat.min_eq_left (by omega : n ≤ _), Nat.min_eq_left (by omega)]

/-- An encoding that fits is written, and then empty bitmaps. -/
theorem writeRelrDyn_eq {relr : List ℕ} {bytes : ℕ} (hfits : relr.length * kind.wordSize ≤ bytes)
    (hlt : ∀ w ∈ relr, w < kind.top) :
    writeRelrDyn kind relr bytes =
      relr ++ List.replicate (bytes / kind.wordSize - relr.length) 1 := by
  have hword := kind.wordSize_pos
  have hslots : relr.length ≤ bytes / kind.wordSize := (Nat.le_div_iff_mul_le hword).mpr hfits
  have hone : 1 < kind.top := by cases kind <;> decide
  refine List.ext_getElem? fun i => ?_
  rw [writeRelrDyn, List.getElem?_map]
  by_cases hi : i < bytes / kind.wordSize
  · rw [List.getElem?_range hi, Option.map_some, List.getD_eq_getElem?_getD]
    by_cases hrelr : i < relr.length
    · rw [List.getElem?_append_left hrelr, List.getElem?_eq_getElem hrelr, Option.getD_some,
        Nat.mod_eq_of_lt (hlt _ (List.getElem_mem hrelr))]
    · rw [List.getElem?_append_right (not_lt.mp hrelr),
        List.getElem?_eq_none (not_lt.mp hrelr), Option.getD_none, Nat.mod_eq_of_lt hone,
        List.getElem?_replicate, if_pos (by omega)]
  · rw [List.getElem?_eq_none (by simpa using hi), Option.map_none, List.getElem?_eq_none]
    rw [List.length_append, List.length_replicate]
    omega

/-- **No relative relocation is lost (proved).**  Decoding an encoding gives the addresses back, and
the size loop keeps the encoding of the addresses of the layout that it keeps. -/
theorem relr_lossless (kind : ElfKind) :
    (∀ places, Packable kind places → ∀ base n,
      decodeRelr kind base (encodeRelr kind places ++ List.replicate n 1) = places) ∧
    ∀ {ε L : Type} (layout : ℕ → Except ε L) (collect : L → RelocVec) (relrSize : ℕ) (first : L),
      layout relrSize = .ok first → ∀ relr size kept,
      relrLoop kind layout collect 7 false relrSize first = .ok (relr, size, kept) →
      layout size = .ok kept ∧ relr = encodeRelr kind (relrAddresses (collect kept)) ∧
        relr.length * kind.wordSize ≤ size ∧
        ((∀ r ∈ (collect kept).val, r.packable = true →
            r.offset % 2 = 0 ∧ r.offset + kind.relrSpan ≤ kind.top) →
          ∀ base p, p ∈ decodeRelr kind base (writeRelrDyn kind relr size) ↔
            ∃ r ∈ (collect kept).val, r.packable = true ∧ r.offset = p) := by
  refine ⟨fun places h base n => decodeRelr_encodeRelr h base n, ?_⟩
  intro ε L layout collect relrSize first hfirst relr size kept h
  obtain ⟨hkept, rfl, hfits⟩ := relrLoop_spec hfirst h
  rw [relrBytes_eq] at hfits
  refine ⟨hkept, rfl, hfits, fun hplaces base p => ?_⟩
  have hpack : Packable kind (relrAddresses (collect kept)) := by
    refine ⟨relrAddresses_sorted _, fun p hp => ?_, fun p hp => ?_⟩
    · obtain ⟨r, hr, hpackable, rfl⟩ := mem_relrAddresses.mp hp
      exact (hplaces r hr hpackable).1
    · obtain ⟨r, hr, hpackable, rfl⟩ := mem_relrAddresses.mp hp
      exact (hplaces r hr hpackable).2
  rw [writeRelrDyn_eq hfits (encodeRelr_lt_top fun p hp => hpack.lt_top hp),
    decodeRelr_encodeRelr hpack, mem_relrAddresses]

/-- Relocations behind `.relr.dyn`, which move with its size: an address, a word in its bitmap, one
that no bitmap can hold, and one that is not packable. -/
def movedRelocs (start : ℕ) : RelocVec :=
  ⟨[⟨start, true⟩, ⟨start + 3, false⟩, ⟨start + 8, true⟩, ⟨start + 18, true⟩],
    (by decide : 4 * 8 < 2 ^ 63)⟩

/-- The loop lays out again for the 24 bytes that the encoding takes, and keeps these. -/
theorem relr_lossless_moved :
    decodeRelr .elf64Le 0 (encodeRelr .elf64Le [4096, 4104, 4114] ++ [1, 1]) = [4096, 4104, 4114] ∧
      ∃ relr, relrLoop .elf64Le (fun size => (.ok (4096 + size) : Except Unit ℕ)) movedRelocs 7
          false 0 4096 = .ok (relr, 24, 4120) ∧
        4138 ∈ decodeRelr .elf64Le 0 (writeRelrDyn .elf64Le relr 24) := by
  obtain ⟨hdecode, hloop⟩ := relr_lossless .elf64Le
  have hkept : relrLoop .elf64Le (fun size => (.ok (4096 + size) : Except Unit ℕ)) movedRelocs 7
      false 0 4096 = .ok ([4120, 3, 4138], 24, 4120) := by decide +kernel
  refine ⟨hdecode [4096, 4104, 4114] ⟨by decide, by decide, by decide⟩ 0 2, _, hkept, ?_⟩
  exact ((hloop _ _ 0 4096 rfl _ _ _ hkept).2.2.2 (by decide) 0 4138).mpr
    ⟨⟨4138, true⟩, by decide, rfl, rfl⟩

end Correct

end Qld.Elf
