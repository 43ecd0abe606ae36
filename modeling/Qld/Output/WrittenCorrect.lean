import Qld.Output.BlockParts

/-!
# The build-id computed while writing

* `slotsOf_get` — a block's slot holds the parts of the block;
* `blockDigest_covers` — parts that cover a block give its digest;
* `finishBuildId_written`, `finishBuildId_readBack` — the build-id of the finished image;
* `writeChunks_buildId` — writing and hashing at once.
-/

namespace Qld.Output

open Qld.Lib
open Qld.Lib (saturatingAdd saturatingAdd_of_lt)

/-! ### Slots -/

variable {block len : ℕ}

/-- **A block's slot holds the parts of the block.** -/
theorem slotsOf_get (plan : HashPlan) (parts : List BlockPart) {blocks : ℕ} (h : block < blocks) :
    (slotsOf (some ⟨plan, parts⟩) blocks).get block =
      (parts.filter fun part => part.block = block).foldl Slot.add .empty := by
  have hgen : ∀ slots : Cells Slot, (parts.foldl (fun slots part =>
      if part.block < blocks then slots.set part.block ((slots.get part.block).add part)
      else slots) slots).get block =
      (parts.filter fun part => part.block = block).foldl Slot.add (slots.get block) := by
    induction parts with
    | nil => exact fun _ => rfl
    | cons part parts ih =>
      intro slots
      rw [List.foldl_cons, ih]
      by_cases hpart : part.block = block
      · rw [List.filter_cons_of_pos (by simpa using hpart), List.foldl_cons, hpart, if_pos h,
          Cells.get_set_self]
      · rw [List.filter_cons_of_neg (by simpa using hpart)]
        split
        · rw [Cells.get_set_of_ne _ (Ne.symm hpart)]
        · rfl
  exact hgen _

theorem foldl_add_missing {parts : List BlockPart} (h : ∀ part ∈ parts, part = .missing block)
    (slot : Slot) :
    (parts.foldl Slot.add slot).missing = (slot.missing || !parts.isEmpty) := by
  induction parts generalizing slot with
  | nil => exact (Bool.or_false _).symm
  | cons part parts ih =>
    rw [List.foldl_cons, ih fun p hp => h p (List.mem_cons_of_mem _ hp), h part List.mem_cons_self]
    exact (Bool.or_true _).symm

theorem foldl_add_pieces (z : ℕ → UInt8) (block : ℕ) (pieces : List (ℕ × ℕ)) (slot : Slot) :
    (pieces.map (pieceOf z block)).foldl Slot.add slot =
      { slot with pieces := slot.pieces ++ pieces.map fun x => (x.1, span z x.1 x.2) } := by
  induction pieces generalizing slot with
  | nil => rw [List.map_nil, List.map_nil, List.append_nil, List.foldl_nil]
  | cons x pieces ih =>
    rw [List.map_cons, List.foldl_cons, ih, List.map_cons]
    show { slot with pieces := (slot.pieces ++ [_]) ++ _ } = _
    rw [List.append_assoc]
    rfl

/-! ### The digest of a block -/

section Digest

variable {kind : BuildId} {fresh : BlockHasher} {z : ℕ → UInt8} {start stop : ℕ}

/-- **Kept pieces resume the leader.** -/
theorem foldl_resume (hkind : BlockHasher.new kind = some fresh) (hstop : stop < 2 ^ 64)
    (pieces : List (ℕ × ℕ)) :
    ∀ a, start ≤ a → Spans z a stop pieces →
      ∃ c, (pieces.map fun x => (x.1, span z x.1 x.2)).foldl resume
          (a, fresh.update (span z start a)) = (c, fresh.update (span z start c)) ∧
        start ≤ c ∧ c ≤ stop ∧ ZeroOn z c stop := by
  induction pieces with
  | nil => exact fun a ha h => ⟨a, rfl, ha, h.1, h.2⟩
  | cons x pieces ih =>
    intro a ha h
    obtain ⟨hlow, hlt, hzero, hrest⟩ := h
    obtain ⟨c, hfold, hc⟩ := ih x.2 (by omega) hrest
    have hle := hrest.lt.1
    refine ⟨c, ?_, hc⟩
    rw [List.map_cons, List.foldl_cons, ← hfold, resume, length_span,
      saturatingAdd_of_lt (by show x.1 + (x.2 - x.1) < _; omega)]
    congr 1
    refine Prod.ext (by show max (x.1 + (x.2 - x.1)) a = x.2; omega) ?_
    show ((fresh.update (span z start a)).updateZeros (x.1 - a)).update (span z x.1 x.2) = _
    rw [BlockHasher.updateZeros_fed hkind, BlockHasher.update_fed hkind, hzero.span,
      span_append z ha hlow, span_append z (by omega) (by omega)]

/-- Hashing up to the end of a block whose rest is zero. -/
theorem finish_updateZeros (hkind : BlockHasher.new kind = some fresh) (hstop : stop < 2 ^ 64)
    {c : ℕ} (hstart : start ≤ c) (hle : c ≤ stop) (hzero : ZeroOn z c stop) :
    ((fresh.update (span z start c)).updateZeros (stop - c)).finish =
      leaf kind (span z start stop) := by
  rw [BlockHasher.updateZeros_fed hkind, hzero.span, span_append z hstart hle,
    BlockHasher.finish_fed hkind]
  rw [length_span]
  omega

end Digest

theorem blockDigest_digest (file : List UInt8) (len : ℕ) (kind : BuildId) (field : ChunkRange)
    (block : ℕ) {slot : Slot} {digest : List UInt8} (hmissing : slot.missing = false)
    (hdigest : slot.digest = some digest) :
    blockDigest file len kind field block slot = .ok digest := by
  rw [blockDigest, if_neg (by rw [hmissing]; exact Bool.false_ne_true), hdigest]

theorem blockDigest_pieces {kind : BuildId} {fresh : BlockHasher}
    (hkind : BlockHasher.new kind = some fresh) (file : List UInt8) (len : ℕ) (field : ChunkRange)
    (block : ℕ) {slot : Slot} (hmissing : slot.missing = false) (hdigest : slot.digest = none)
    (hsorted : slot.pieces.Pairwise fun a b => a.1 ≤ b.1) :
    blockDigest file len kind field block slot =
      let done := slot.pieces.foldl resume (slot.opened.getD ((blockSpan block len).1, fresh))
      .ok (done.2.updateZeros ((blockSpan block len).2 - done.1)).finish := by
  have hsort : slot.pieces.mergeSort (fun a b => decide (a.1 ≤ b.1)) = slot.pieces :=
    List.mergeSort_of_pairwise (hsorted.imp fun h => by simpa using h)
  rw [blockDigest, if_neg (by rw [hmissing]; exact Bool.false_ne_true), hdigest, hsort, hkind]
  cases slot.opened <;> rfl

section Block

variable {kind : BuildId} {fresh : BlockHasher} {z : ℕ → UInt8} {len block : ℕ}
  {field : ChunkRange} (hkind : BlockHasher.new kind = some fresh) (hlen : len < 2 ^ 64)
  (hblock : block * BLOCK_SIZE < len)

theorem blockStop_le (block len : ℕ) : blockStop block len ≤ len := Nat.min_le_right _ _

theorem le_blockStop {block len : ℕ} (hblock : block * BLOCK_SIZE < len) :
    block * BLOCK_SIZE ≤ blockStop block len :=
  Nat.le_min.mpr ⟨Nat.le_add_right _ _, hblock.le⟩

include hkind hlen hblock

/-- **A block that is read back.** -/
theorem blockDigest_readBack (hfield : field.past ≤ len) {slot : Slot}
    (hmissing : slot.missing = true) :
    blockDigest (span z 0 len) len kind field block slot =
      .ok (leaf kind (span (zeroed z field) (block * BLOCK_SIZE) (blockStop block len))) := by
  have hstop := blockStop_le block len
  have hle := le_blockStop hblock
  have hread : getSlice (span z 0 len) (block * BLOCK_SIZE)
      (block * BLOCK_SIZE + (blockStop block len - block * BLOCK_SIZE)) =
      some (span z (block * BLOCK_SIZE) (blockStop block len)) := by
    rw [Nat.add_sub_cancel' hle]
    have hslice := getSlice_span (z := z) (Nat.zero_le (block * BLOCK_SIZE)) hle hstop
    rwa [Nat.sub_zero, Nat.sub_zero] at hslice
  rw [blockDigest, if_pos hmissing, blockSpan_eq hlen hblock, hread, hkind]
  show Except.ok (fresh.update (zeroOverlap _ _ field)).finish = _
  rw [zeroOverlap_span z hle (by omega) (by omega), BlockHasher.finish_fed hkind]
  rw [length_span]
  omega

/-- **Parts that cover a block give its digest.** -/
theorem blockDigest_covers (hfield : field.past ≤ len) {parts : List BlockPart}
    (h : Covers kind (zeroed z field) (block * BLOCK_SIZE) (blockStop block len) block parts) :
    blockDigest (span z 0 len) len kind field block (parts.foldl Slot.add .empty) =
      .ok (leaf kind (span (zeroed z field) (block * BLOCK_SIZE) (blockStop block len))) := by
  have hstop := blockStop_le block len
  have hle := le_blockStop hblock
  cases h with
  | untouched hzero =>
    rw [blockDigest_pieces hkind _ _ _ _ rfl rfl List.Pairwise.nil, blockSpan_eq hlen hblock,
      ← finish_updateZeros hkind (by omega) (le_refl _) hle hzero, span_self,
      BlockHasher.update_nil hkind]
    rfl
  | whole => exact blockDigest_digest _ _ _ _ _ rfl rfl
  | led fresh' a pieces hfresh hlow hlt hspans =>
    obtain rfl := Option.some.inj (hkind.symm.trans hfresh)
    obtain ⟨c, hfold, hstart, hc, hzero⟩ := foldl_resume hkind (by omega) pieces a hlow hspans
    have hsorted : (pieces.map fun x => (x.1, span (zeroed z field) x.1 x.2)).Pairwise
        fun a b => a.1 ≤ b.1 := List.pairwise_map.mpr hspans.pairwise
    have hslot : (BlockPart.opened block a (fresh.update (span (zeroed z field) (block * BLOCK_SIZE) a))
        :: pieces.map (pieceOf (zeroed z field) block)).foldl Slot.add .empty =
        ⟨none, some (a, fresh.update (span (zeroed z field) (block * BLOCK_SIZE) a)),
          pieces.map fun x => (x.1, span (zeroed z field) x.1 x.2), false⟩ := by
      rw [List.foldl_cons, foldl_add_pieces]
      rfl
    rw [hslot, blockDigest_pieces hkind _ _ _ _ rfl rfl hsorted, blockSpan_eq hlen hblock]
    simp only [Option.getD_some]
    rw [hfold, finish_updateZeros hkind (by omega) hstart hc hzero]
  | readBack _ hne hall =>
    refine blockDigest_readBack hkind hlen hblock hfield ?_
    rw [foldl_add_missing hall, List.isEmpty_eq_false_iff.mpr hne]
    rfl

end Block

/-! ### The build-id -/

theorem lt_blocks :
    block < (len + (BLOCK_SIZE - 1)) / BLOCK_SIZE ↔ block * BLOCK_SIZE < len := by
  rw [BLOCK_SIZE]
  omega

theorem chunks_span (z : ℕ → UInt8) (len : ℕ) :
    chunks BLOCK_SIZE (span z 0 len) = (List.range ((len + (BLOCK_SIZE - 1)) / BLOCK_SIZE)).map
      fun block => span z (block * BLOCK_SIZE) (blockStop block len) := by
  rw [chunks, length_span, Nat.sub_zero]
  refine List.map_congr_left fun block hblock => ?_
  have hlt := lt_blocks.mp (List.mem_range.mp hblock)
  refine eq_span ?_ fun i hi => ?_
  · rw [List.length_take, List.length_drop, length_span, blockStop]
    omega
  · rw [blockStop] at hi
    rw [List.getElem?_take, if_pos (by omega), List.getElem?_drop, getElem?_span z (by omega),
      Nat.zero_add]

theorem overwrite_field {z : ℕ → UInt8} {field : ChunkRange} (hfield : field.past ≤ len) :
    overwrite (span z 0 len) field.offset (List.replicate field.size 0) =
      span (zeroed z field) 0 len := by
  have hlow : field.offset ≤ field.past := Nat.le_add_right _ _
  have hsize : field.size = field.past - field.offset := by
    rw [ChunkRange.past, Nat.add_sub_cancel_left]
  have hwrite := overwrite_span z (fun _ => 0) (Nat.zero_le field.offset) hlow hfield
  rw [Nat.sub_zero, ← replicate_eq_span, ← hsize] at hwrite
  exact hwrite

section BuildId

variable {kind : BuildId} {fresh : BlockHasher} {z : ℕ → UInt8} {len : ℕ} {field : ChunkRange}

/-- **The build-id from the digests of the blocks.** -/
theorem finishBuildId_eq (hkind : BlockHasher.new kind = some fresh) (hlen : len < 2 ^ 64)
    (hfield : field.past ≤ len) (uuid : List UInt8) {precomputed : Option Precomputed}
    (hdigests : ∀ block, block * BLOCK_SIZE < len →
      blockDigest (span z 0 len) len kind field block
          ((slotsOf precomputed ((len + (BLOCK_SIZE - 1)) / BLOCK_SIZE)).get block) =
        .ok (leaf kind (span (zeroed z field) (block * BLOCK_SIZE) (blockStop block len)))) :
    finishBuildId (span z 0 len) len kind field precomputed =
      .ok (computeBuildId uuid kind
        (overwrite (span z 0 len) field.offset (List.replicate field.size 0))) := by
  have hall := mapM_eq_ok_map fun block hblock =>
    hdigests block (lt_blocks.mp (List.mem_range.mp hblock))
  have hsmall : (span (zeroed z field) 0 len).length < 2 ^ 64 := by
    rw [length_span]
    omega
  rw [overwrite_field hfield, ← combineDigests_leaves uuid hkind hsmall, chunks_span, List.map_map,
    finishBuildId, hkind]
  simp only
  rw [hall]
  rfl

/-- **The build-id read back from the file.** -/
theorem finishBuildId_readBack (hkind : BlockHasher.new kind = some fresh) (hlen : len < 2 ^ 64)
    (hfield : field.past ≤ len) (uuid : List UInt8) :
    finishBuildId (span z 0 len) len kind field none =
      .ok (computeBuildId uuid kind
        (overwrite (span z 0 len) field.offset (List.replicate field.size 0))) :=
  finishBuildId_eq hkind hlen hfield uuid fun _ hblock =>
    blockDigest_readBack hkind hlen hblock hfield rfl

end BuildId

/-! ### Blocks to read back -/

theorem mem_of_missingBlocks {regions : List Region} {previous : List ℕ}
    (h : (missingBlocks len regions previous).get block = true) :
    ∃ region ∈ regions, region.start < region.stop ∧ region.start / BLOCK_SIZE = block := by
  have hgen : ∀ (l : List (Region × ℕ)) (missing : Cells Bool),
      (l.foldl (fun missing x =>
        if x.1.stop ≤ x.1.start then missing
        else
          let block := x.1.start / BLOCK_SIZE
          let span := blockSpan block len
          let head := min span.2 x.1.stop - x.1.start
          if x.2 > span.1 ∧ head > RETAIN_LIMIT then missing.set block true else missing)
        missing).get block = true →
      missing.get block = true ∨
        ∃ x ∈ l, x.1.start < x.1.stop ∧ x.1.start / BLOCK_SIZE = block := by
    intro l
    induction l with
    | nil => exact fun _ h => .inl h
    | cons x l ih =>
      intro missing h
      rw [List.foldl_cons] at h
      rcases ih _ h with hset | ⟨y, hy, hfound⟩
      · split at hset
        · exact .inl hset
        · next hsome =>
          simp only at hset
          split at hset
          · by_cases hblock : block = x.1.start / BLOCK_SIZE
            · exact .inr ⟨x, List.mem_cons_self, Nat.lt_of_not_le hsome, hblock.symm⟩
            · rw [Cells.get_set_of_ne _ hblock] at hset
              exact .inl hset
          · exact .inl hset
      · exact .inr ⟨y, List.mem_cons_of_mem _ hy, hfound⟩
  rcases hgen _ _ h with hconst | ⟨x, hx, hlt, hblock⟩
  · exact nomatch hconst
  · exact ⟨x.1, List.of_mem_zip hx |>.1, hlt, hblock⟩

/-! ### Writing and hashing -/

section Written

variable {ε : Type} {writer : ChunkWriter ε} {ranges : List ChunkRange} {len : ℕ}
  {content : ℕ → List UInt8} {plan : HashPlan}

/-- The parts that the regions of a layout learn. -/
def partsWritten (len : ℕ) (ranges : List ChunkRange) (content : ℕ → List UInt8) (plan : HashPlan) :
    List BlockPart :=
  (neighbours len 0 (planRegions ranges)).flatMap fun x =>
    partsOf (contextOf len ranges (some plan) x)
      (span (contentAt ranges content) x.1.start x.1.stop) x.1.start

theorem filter_partsWritten (len : ℕ) (ranges : List ChunkRange) (content : ℕ → List UInt8)
    (plan : HashPlan) (block : ℕ) :
    (partsWritten len ranges content plan).filter (fun part => part.block = block) =
      partsIn ranges len plan
        (missingBlocks len (planRegions ranges) (previousEnds 0 (planRegions ranges)))
        (contentAt ranges content) block 0 (planRegions ranges) := by
  rw [partsWritten, List.filter_flatMap]
  rfl

/-- **The parts tell the digest of every block.** -/
theorem covers_partsWritten {fresh : BlockHasher} (hkind : BlockHasher.new plan.kind = some fresh)
    (hlen : len < 2 ^ 64) (hlaid : LaidOut 0 len ranges) (hfield : plan.field.past ≤ len)
    (hsize : ∀ i range, ranges[i]? = some range → (content i).length = range.size) (block : ℕ) :
    Covers plan.kind (zeroed (contentAt ranges content) plan.field) (block * BLOCK_SIZE)
      (blockStop block len) block
      ((partsWritten len ranges content plan).filter fun part => part.block = block) := by
  have hapart := apart_planRegions hlen hlaid
  have hsmall : plan.field.past < 2 ^ 64 := by omega
  rw [filter_partsWritten]
  set missing := missingBlocks len (planRegions ranges) (previousEnds 0 (planRegions ranges))
    with hdef
  cases hmissing : missing.get block with
  | false =>
    refine covers_partsIn hlen hsmall hkind hmissing hapart (fun p _ hnone => ?_) (Nat.zero_le _)
    rw [zeroed, contentAt_outside hlen hlaid hsize hnone, ite_self]
  | true =>
    obtain ⟨hall, hsome⟩ := partsIn_missing ranges (contentAt ranges content) hlen hsmall hmissing
      hapart 0
    obtain ⟨region, hregion, hlt, hstart⟩ := mem_of_missingBlocks hmissing
    have hstop := (hapart.mem hregion).2
    refine .readBack _ (hsome region hregion hlt ?_ ?_) hall
    · rw [blockStop]
      rw [BLOCK_SIZE] at *
      omega
    · rw [BLOCK_SIZE] at *
      omega

/-- **Writing and hashing at once (proved).** The chunks of an accepted layout, written in any order
of the regions, give the file with zeros elsewhere; the parts that the regions learned give the
build-id of that file with the field zeroed, and each block's parts are a digest, a leader and
pieces in order, or ask to read it back, or are none when the block is zero. -/
theorem writeChunks_buildId (hlen : len < 2 ^ 64) (hlayout : validateLayout ranges len = .ok ())
    (hwrites : Writes writer ranges content) (hkind : (BlockHasher.new plan.kind).isSome)
    (hfield : plan.field.offset + plan.field.size ≤ len) (uuid : List UInt8) {order : List ℕ}
    (horder : order.Perm (List.range (planRegions ranges).length)) :
    ∃ file parts,
      writeChunks (List.replicate len 0) len ranges writer (some plan) order =
        (file, .ok (some ⟨plan, parts⟩)) ∧
      file.length = len ∧
      (∀ i range, ranges[i]? = some range →
        getSlice file range.offset (range.offset + range.size) = some (content i)) ∧
      (∀ p < len, (∀ range ∈ ranges, ¬(range.offset ≤ p ∧ p < range.offset + range.size)) →
        file[p]? = some 0) ∧
      finishBuildId file len plan.kind plan.field (some ⟨plan, parts⟩) =
        .ok (computeBuildId uuid plan.kind
          (overwrite file plan.field.offset (List.replicate plan.field.size 0))) ∧
      finishBuildId file len plan.kind plan.field none =
        finishBuildId file len plan.kind plan.field (some ⟨plan, parts⟩) ∧
      ∀ block, block * BLOCK_SIZE < len →
        Covers plan.kind (zeroed (contentAt ranges content) plan.field) (block * BLOCK_SIZE)
          (blockStop block len) block (parts.filter fun part => part.block = block) := by
  obtain ⟨fresh, hfresh⟩ := Option.isSome_iff_exists.mp hkind
  have hlaid := (validateLayout_ok hlen).mp hlayout
  have hcovers := covers_partsWritten hfresh hlen hlaid hfield hwrites.size
  have hwritten : finishBuildId (span (contentAt ranges content) 0 len) len plan.kind plan.field
      (some ⟨plan, partsWritten len ranges content plan⟩) = _ :=
    finishBuildId_eq hfresh hlen hfield uuid fun block hblock => by
      rw [slotsOf_get plan _ (lt_blocks.mpr hblock)]
      exact blockDigest_covers hfresh hlen hblock hfield (hcovers block)
  refine ⟨_, _, writeChunks_eq hlen hlaid hwrites (some plan) horder, ?_, fun i range hi => ?_,
    fun p hp hnone => ?_, hwritten, ?_, fun block _ => hcovers block⟩
  · rw [length_span, Nat.sub_zero]
  · have hmem := hlaid.mem (List.mem_of_getElem? hi)
    have hslice := getSlice_span (z := contentAt ranges content) (Nat.zero_le range.offset)
      (Nat.le_add_right _ _) hmem.2
    rw [content_eq_span hlaid hwrites.size hi]
    rwa [Nat.sub_zero, Nat.sub_zero] at hslice
  · rw [getElem?_span _ (by omega), Nat.zero_add, contentAt_gap hwrites.size hnone]
  · exact (finishBuildId_readBack hfresh hlen hfield uuid).trans hwritten.symm

end Written

/-- Writers that fill their chunks with ones. -/
def onesWriter : ChunkWriter Unit :=
  ⟨fun _ slice => .ok (slice.map fun _ => 1), fun _ slice bytes h => by
    rw [← Except.ok.inj h, List.length_map]⟩

def onesContent (ranges : List ChunkRange) (i : ℕ) : List UInt8 :=
  List.replicate ((ranges[i]?.map ChunkRange.size).getD 0) 1

theorem onesWriter_writes (ranges : List ChunkRange) :
    Writes onesWriter ranges (onesContent ranges) := by
  intro i range hi
  rw [onesContent, hi]
  exact congrArg Except.ok List.map_replicate

/-- Two chunks, of which the second reaches into another block: the regions of these blocks. -/
def crossing : List ChunkRange := [⟨0, 1⟩, ⟨BLOCK_SIZE - 2, 4⟩]

/-- Two regions, the second one first, and a build-id field inside the chunk on both blocks. -/
theorem writeChunks_buildId_crossing : ∃ file parts,
    writeChunks (List.replicate (BLOCK_SIZE + 9) 0) (BLOCK_SIZE + 9) crossing onesWriter
        (some ⟨.sha1, ⟨BLOCK_SIZE - 1, 2⟩⟩) [1, 0] =
      (file, .ok (some ⟨⟨.sha1, ⟨BLOCK_SIZE - 1, 2⟩⟩, parts⟩)) ∧
    getSlice file (BLOCK_SIZE - 2) (BLOCK_SIZE - 2 + 4) = some [1, 1, 1, 1] ∧
    finishBuildId file (BLOCK_SIZE + 9) .sha1 ⟨BLOCK_SIZE - 1, 2⟩
        (some ⟨⟨.sha1, ⟨BLOCK_SIZE - 1, 2⟩⟩, parts⟩) =
      .ok (computeBuildId [] .sha1 (overwrite file (BLOCK_SIZE - 1) (List.replicate 2 0))) := by
  obtain ⟨file, parts, hwritten, -, hchunks, -, hid, -⟩ :=
    writeChunks_buildId (by decide : BLOCK_SIZE + 9 < 2 ^ 64) (by decide)
      (onesWriter_writes crossing)
      (rfl : (BlockHasher.new (HashPlan.mk .sha1 ⟨BLOCK_SIZE - 1, 2⟩).kind).isSome = true)
      (by decide) [] (by decide : [1, 0].Perm (List.range (planRegions crossing).length))
  exact ⟨file, parts, hwritten, hchunks 1 ⟨BLOCK_SIZE - 2, 4⟩ rfl, hid⟩

/-- A block that no chunk has bytes in has neither a digest, nor a leader, nor is it read back. -/
theorem writeChunks_untouched : ∃ file parts,
    writeChunks (List.replicate (2 * BLOCK_SIZE) 0) (2 * BLOCK_SIZE) [⟨0, 1⟩] onesWriter
        (some ⟨.sha1, ⟨0, 0⟩⟩) [0] = (file, .ok (some ⟨⟨.sha1, ⟨0, 0⟩⟩, parts⟩)) ∧
    1 * BLOCK_SIZE < 2 * BLOCK_SIZE ∧ ∀ part ∈ parts, part.block ≠ 1 := by
  have hlen : 2 * BLOCK_SIZE < 2 ^ 64 := by decide
  have hlaid : LaidOut 0 (2 * BLOCK_SIZE) [⟨0, 1⟩] :=
    ⟨le_refl 0, (by decide : 0 + 1 ≤ 2 * BLOCK_SIZE)⟩
  refine ⟨_, _, writeChunks_eq hlen hlaid (onesWriter_writes _) _ (List.Perm.refl [0]), by decide, ?_⟩
  have hnone := filter_partsWritten (2 * BLOCK_SIZE) [⟨0, 1⟩] (onesContent [⟨0, 1⟩])
    ⟨.sha1, ⟨0, 0⟩⟩ 1
  have hregions : planRegions [⟨0, 1⟩] = [⟨0, 1, 0, 1⟩] := by decide
  rw [hregions, partsIn_cons, partsAt_eq hlen (by decide) (by decide), if_neg (by decide)] at hnone
  intro part hpart hblock
  exact List.filter_eq_nil_iff.mp hnone part hpart (decide_eq_true hblock)

end Qld.Output
