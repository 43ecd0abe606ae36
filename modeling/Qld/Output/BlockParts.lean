import Qld.Output.Regions

/-!
# What the regions learn about a block

* `ZeroOn`, `Spans` — stretches of zeros, and stretches in order with zeros between them;
* `Covers` — the parts that tell the digest of a block;
* `hashBlock_leader`, `hashBlock_piece` — what one region learns;
* `covers_parts` — what all of them learn tells the digest of every block.
-/

namespace Qld.Output

open Qld.Lib
open Qld.Lib (saturatingAdd saturatingAdd_of_lt)

/-! ### Stretches -/

/-- A stretch that holds zeros. -/
def ZeroOn (z : ℕ → UInt8) (a b : ℕ) : Prop := ∀ p, a ≤ p → p < b → z p = 0

variable {z : ℕ → UInt8} {b : ℕ}

theorem ZeroOn.span {a : ℕ} (h : ZeroOn z a b) :
    List.replicate (b - a) 0 = span z a b := (span_eq_replicate h).symm

/-- Stretches in order between two positions, with zeros between them. -/
def Spans (z : ℕ → UInt8) : (a b : ℕ) → List (ℕ × ℕ) → Prop
  | a, b, [] => a ≤ b ∧ ZeroOn z a b
  | a, b, x :: xs => a ≤ x.1 ∧ x.1 < x.2 ∧ ZeroOn z a x.1 ∧ Spans z x.2 b xs

theorem Spans.lt {xs : List (ℕ × ℕ)} :
    ∀ {a : ℕ}, Spans z a b xs → a ≤ b ∧ ∀ x ∈ xs, a ≤ x.1 ∧ x.1 < x.2 ∧ x.2 ≤ b := by
  induction xs with
  | nil => exact fun h => ⟨h.1, fun x hx => nomatch hx⟩
  | cons x xs ih =>
    intro a h
    obtain ⟨hle, hin⟩ := ih h.2.2.2
    have hstart := h.1
    have hsome := h.2.1
    refine ⟨by omega, List.forall_mem_cons.mpr ⟨⟨hstart, hsome, hle⟩, fun y hy => ?_⟩⟩
    obtain ⟨hlow, hrest⟩ := hin y hy
    exact ⟨by omega, hrest⟩

theorem Spans.pairwise {xs : List (ℕ × ℕ)} :
    ∀ {a : ℕ}, Spans z a b xs → xs.Pairwise fun x y => x.1 ≤ y.1 := by
  induction xs with
  | nil => exact fun _ => List.Pairwise.nil
  | cons x xs ih =>
    intro a h
    refine List.pairwise_cons.mpr ⟨fun y hy => ?_, ih h.2.2.2⟩
    have hlow := (h.2.2.2.lt.2 y hy).1
    have hsome := h.2.1
    omega

/-- The part that keeps a stretch. -/
def pieceOf (z : ℕ → UInt8) (block : ℕ) (x : ℕ × ℕ) : BlockPart :=
  .piece block x.1 (span z x.1 x.2)

/-- The parts that tell the digest of a block: none, a digest, a leader followed by pieces in order,
or that it is to be read back. -/
inductive Covers (kind : BuildId) (z : ℕ → UInt8) (start stop block : ℕ) : List BlockPart → Prop
  | untouched : ZeroOn z start stop → Covers kind z start stop block []
  | whole : Covers kind z start stop block [.digest block (leaf kind (span z start stop))]
  | led (fresh : BlockHasher) (until_ : ℕ) (pieces : List (ℕ × ℕ)) :
      BlockHasher.new kind = some fresh → start ≤ until_ → until_ < stop →
      Spans z until_ stop pieces →
      Covers kind z start stop block
        (.opened block until_ (fresh.update (span z start until_)) :: pieces.map (pieceOf z block))
  | readBack (parts : List BlockPart) : parts ≠ [] → (∀ part ∈ parts, part = .missing block) →
      Covers kind z start stop block parts

/-! ### The field -/

/-- A sequence with a field zeroed. -/
def zeroed (z : ℕ → UInt8) (field : ChunkRange) (p : ℕ) : UInt8 :=
  if field.offset ≤ p ∧ p < field.past then 0 else z p

/-- **The field is zeroed in a stretch.** -/
theorem zeroOverlap_span (z : ℕ → UInt8) {field : ChunkRange} {a : ℕ} (hab : a ≤ b)
    (hb : b < 2 ^ 64) (hfield : field.past < 2 ^ 64) :
    zeroOverlap (span z a b) a field = span (zeroed z field) a b := by
  have hstop : field.stop = some field.past := by
    rw [ChunkRange.stop, checkedAdd, if_pos (by exact hfield)]
    rfl
  have hbuf : saturatingAdd a (span z a b).length = b := by
    rw [length_span, saturatingAdd_of_lt (by omega), Nat.add_sub_cancel' hab]
  rw [zeroOverlap, hstop]
  simp only
  rw [hbuf]
  by_cases hnone : min field.past b ≤ max field.offset a
  · rw [if_pos hnone]
    refine span_congr fun p hle hlt => ?_
    rw [zeroed, if_neg (by omega)]
  · rw [if_neg hnone, if_pos (by rw [length_span]; omega), replicate_eq_span,
      overwrite_span z (fun _ => 0) (by omega) (by omega) (by omega)]
    refine span_congr fun p hle hlt => ?_
    rw [zeroed]
    by_cases hin : field.offset ≤ p ∧ p < field.past
    · rw [if_pos hin, if_pos (by omega)]
    · rw [if_neg hin, if_neg (by omega)]

/-! ### One region -/

/-- One past the last byte of a block. -/
def blockStop (block len : ℕ) : ℕ := min (block * BLOCK_SIZE + BLOCK_SIZE) len

theorem blockSpan_eq {block len : ℕ} (hlen : len < 2 ^ 64) (hin : block * BLOCK_SIZE < len) :
    blockSpan block len = (block * BLOCK_SIZE, blockStop block len) := by
  have hstart : min (block * BLOCK_SIZE) U64_MAX = block * BLOCK_SIZE := by
    rw [U64_MAX]
    omega
  rw [blockSpan, hstart, saturatingAdd, blockStop, U64_MAX]
  refine Prod.ext rfl ?_
  show min (min (block * BLOCK_SIZE + BLOCK_SIZE) _) len = _
  omega

theorem hashBlock_block {context : RegionContext} {plan : HashPlan} {buf : List UInt8}
    {start block : ℕ} {part : BlockPart} (h : hashBlock context plan buf start block = some part) :
    part.block = block := by
  rw [hashBlock] at h
  simp only at h
  split at h
  · rw [← Option.some.inj h]
    rfl
  · obtain ⟨data, -, h⟩ := Option.bind_eq_some_iff.mp h
    split at h
    · rw [← Option.some.inj h]
      rfl
    · obtain ⟨hasher, -, rfl⟩ := Option.map_eq_some_iff.mp h
      split
      · rfl
      · split <;> rfl

/-- Of results that tell their keys, those of one key. -/
theorem filter_filterMap {β : Type} {f : ℕ → Option β} {key : β → ℕ}
    (hkey : ∀ i x, f i = some x → key x = i) {l : List ℕ} (hnodup : l.Nodup) (k : ℕ) :
    (l.filterMap f).filter (fun x => key x = k) = if k ∈ l then (f k).toList else [] := by
  induction l with
  | nil => rfl
  | cons i l ih =>
    obtain ⟨hnot, hnodup⟩ := List.nodup_cons.mp hnodup
    have hrest := ih hnodup
    rw [List.filterMap_cons]
    by_cases hi : k = i
    · subst hi
      rw [if_neg hnot] at hrest
      rw [if_pos List.mem_cons_self]
      cases hf : f k with
      | none => exact hrest
      | some x =>
        show List.filter _ (x :: _) = _
        rw [List.filter_cons_of_pos (by simpa using hkey k x hf), hrest]
        rfl
    · have hmem : (k ∈ i :: l) = (k ∈ l) := by
        rw [List.mem_cons, eq_false hi, false_or]
      simp only [hmem]
      rw [← hrest]
      cases hf : f i with
      | none => rfl
      | some x =>
        show List.filter _ (x :: _) = _
        rw [List.filter_cons_of_neg]
        rw [hkey i x hf]
        simpa using fun h => hi h.symm

section Region

variable {context : RegionContext} {plan : HashPlan} {z : ℕ → UInt8} {start stop block : ℕ}

theorem saturatingAdd_length_span (hle : start ≤ stop) (hstop : stop < 2 ^ 64) :
    saturatingAdd start (span z start stop).length = stop := by
  rw [length_span, saturatingAdd_of_lt (by omega), Nat.add_sub_cancel' hle]

theorem filter_hashRegion (hlt : start < stop) (hstop : stop ≤ context.len)
    (hlen : context.len < 2 ^ 64) :
    (hashRegion context plan (span z start stop) start).filter (fun part => part.block = block) =
      if start < blockStop block context.len ∧ block * BLOCK_SIZE < stop then
        (hashBlock context plan (span z start stop) start block).toList
      else [] := by
  have hfirst := Nat.div_add_mod start BLOCK_SIZE
  have hfirstlt := Nat.mod_lt start (show BLOCK_SIZE > 0 by decide)
  have hlast := Nat.div_add_mod (stop - 1) BLOCK_SIZE
  have hlastlt := Nat.mod_lt (stop - 1) (show BLOCK_SIZE > 0 by decide)
  have hmem : block ∈ List.range' (start / BLOCK_SIZE)
      ((stop - 1) / BLOCK_SIZE + 1 - start / BLOCK_SIZE) ↔
      start < blockStop block context.len ∧ block * BLOCK_SIZE < stop := by
    rw [List.mem_range'_1, blockStop]
    rw [BLOCK_SIZE] at *
    omega
  rw [hashRegion, saturatingAdd_length_span hlt.le (by omega),
    filter_filterMap (fun _ _ h => hashBlock_block h) List.nodup_range']
  simp only [hmem]

theorem getSlice_span {a b : ℕ} (ha : start ≤ a) (hab : a ≤ b) (hb : b ≤ stop) :
    getSlice (span z start stop) (a - start) (b - start) = some (span z a b) := by
  rw [getSlice, length_span, if_pos (by omega), ← span_slice z ha hb]
  congr 2
  omega

theorem hashBlock_missing {buf : List UInt8} (hmissing : context.missing.get block = true) :
    hashBlock context plan buf start block = some (.missing block) := by
  rw [hashBlock, if_pos hmissing]

variable (hlen : context.len < 2 ^ 64) (hlt : start < stop) (hstop : stop ≤ context.len)
  (hbefore : start < blockStop block context.len) (hafter : block * BLOCK_SIZE < stop)
  (hmissing : context.missing.get block = false)

include hlen hlt hstop hbefore hafter hmissing

/-- **A region that does not lead a block keeps its bytes.** -/
theorem hashBlock_piece (hprevious : block * BLOCK_SIZE < context.previousEnd)
    (hstart : context.previousEnd ≤ start) :
    hashBlock context plan (span z start stop) start block =
      some (pieceOf z block (start, min (blockStop block context.len) stop)) := by
  have hin : block * BLOCK_SIZE < context.len := by omega
  rw [hashBlock, if_neg (by rw [hmissing]; exact Bool.false_ne_true), blockSpan_eq hlen hin,
    saturatingAdd_length_span hlt.le (by omega)]
  simp only
  rw [Nat.max_eq_right (by omega), getSlice_span (le_refl start) (by omega) (Nat.min_le_right _ _),
    Option.bind_some, if_pos hprevious]
  rfl

/-- **What the region that leads a block learns.** -/
theorem hashBlock_leader {fresh : BlockHasher} (hkind : BlockHasher.new plan.kind = some fresh)
    (hprevious : context.previousEnd ≤ block * BLOCK_SIZE) (hnext : stop ≤ context.nextStart)
    (hhead : ZeroOn z (block * BLOCK_SIZE) (max (block * BLOCK_SIZE) start))
    (hgap : ZeroOn z stop context.nextStart) :
    hashBlock context plan (span z start stop) start block =
      some (if blockStop block context.len ≤ context.nextStart then
          .digest block (leaf plan.kind (span z (block * BLOCK_SIZE) (blockStop block context.len)))
        else .opened block context.nextStart
          (fresh.update (span z (block * BLOCK_SIZE) context.nextStart))) := by
  have hin : block * BLOCK_SIZE < context.len := by omega
  have hblock : blockStop block context.len ≤ context.len := Nat.min_le_right _ _
  have hspan : block * BLOCK_SIZE < blockStop block context.len := by
    rw [blockStop]
    have : 0 < BLOCK_SIZE := by decide
    omega
  have hfed : ∀ b, max (block * BLOCK_SIZE) start ≤ b →
      (fresh.updateZeros (max (block * BLOCK_SIZE) start - block * BLOCK_SIZE)).update
        (span z (max (block * BLOCK_SIZE) start) b) = fresh.update (span z (block * BLOCK_SIZE) b) := by
    intro b hb
    rw [← BlockHasher.update_nil hkind, BlockHasher.updateZeros_fed hkind, BlockHasher.update_fed hkind,
      BlockHasher.update_fed hkind, List.nil_append, List.nil_append, hhead.span,
      span_append z (Nat.le_max_left _ _) hb]
  have hfinish : (fresh.update (span z (block * BLOCK_SIZE) (blockStop block context.len))).finish =
      leaf plan.kind (span z (block * BLOCK_SIZE) (blockStop block context.len)) := by
    refine BlockHasher.finish_fed hkind ?_
    rw [length_span]
    omega
  rw [hashBlock, if_neg (by rw [hmissing]; exact Bool.false_ne_true), blockSpan_eq hlen hin,
    saturatingAdd_length_span hlt.le (by omega)]
  simp only
  rw [getSlice_span (Nat.le_max_right _ _) (by omega) (Nat.min_le_right _ _), Option.bind_some,
    if_neg (by omega), hkind, Option.map_some, hfed _ (by omega)]
  rcases Nat.lt_or_ge stop (blockStop block context.len) with hends | hends
  · rw [Nat.min_eq_right hends.le, if_neg (by omega), BlockHasher.updateZeros_fed hkind]
    have hzeros : ZeroOn z stop (min (blockStop block context.len) context.nextStart) :=
      fun p hlow hhigh => hgap p hlow (by omega)
    rw [hzeros.span, span_append z (by omega) (by omega)]
    rcases Nat.lt_or_ge context.nextStart (blockStop block context.len) with hnot | hlast
    · rw [Nat.min_eq_right hnot.le, if_neg (by omega), if_neg (by omega)]
    · rw [Nat.min_eq_left hlast, if_pos rfl, if_pos hlast, hfinish]
  · rw [Nat.min_eq_left hends, if_pos rfl, if_pos (by omega), hfinish]

end Region

/-! ### All regions -/

section Regions

variable {ranges : List ChunkRange} {len : ℕ} {plan : HashPlan} {missing : Cells Bool}
  {z : ℕ → UInt8} {block : ℕ}

/-- What a region with neighbours learned about a block. -/
def partsAt (ranges : List ChunkRange) (len : ℕ) (plan : HashPlan) (missing : Cells Bool)
    (z : ℕ → UInt8) (block : ℕ) (x : Region × ℕ × ℕ) : List BlockPart :=
  (partsOf ⟨ranges, len, x.2.1, x.2.2, missing, some plan⟩ (span z x.1.start x.1.stop)
    x.1.start).filter fun part => part.block = block

theorem partsAt_eq (hlen : len < 2 ^ 64) (hfield : plan.field.past < 2 ^ 64)
    {x : Region × ℕ × ℕ} (hstop : x.1.stop ≤ len) :
    partsAt ranges len plan missing z block x =
      if x.1.start < x.1.stop ∧ x.1.start < blockStop block len ∧ block * BLOCK_SIZE < x.1.stop then
        (hashBlock ⟨ranges, len, x.2.1, x.2.2, missing, some plan⟩ plan
          (span (zeroed z plan.field) x.1.start x.1.stop) x.1.start block).toList
      else [] := by
  rw [partsAt, partsOf, length_span]
  simp only
  by_cases hlt : x.1.start < x.1.stop
  · rw [if_pos (by omega), zeroOverlap_span z hlt.le (by omega) hfield,
      filter_hashRegion hlt hstop hlen]
    simp only [hlt, true_and]
  · rw [if_neg (by omega), if_neg fun h => hlt h.1]
    rfl

/-- What the regions learned about a block. -/
def partsIn (ranges : List ChunkRange) (len : ℕ) (plan : HashPlan) (missing : Cells Bool)
    (z : ℕ → UInt8) (block stop : ℕ) (regions : List Region) : List BlockPart :=
  (neighbours len stop regions).flatMap (partsAt ranges len plan missing z block)

theorem partsIn_cons (stop : ℕ) (region : Region) (regions : List Region) :
    partsIn ranges len plan missing z block stop (region :: regions) =
      partsAt ranges len plan missing z block (region, stop, firstStart len regions) ++
        partsIn ranges len plan missing z block
          (if region.stop > region.start then region.stop else stop) regions := by
  rw [partsIn, neighbours_cons, List.flatMap_cons, partsIn]

variable (hlen : len < 2 ^ 64) (hfield : plan.field.past < 2 ^ 64)

include hlen hfield

variable {stop : ℕ} {regions : List Region}

theorem partsIn_late (hapart : Apart stop len regions)
    (hlate : blockStop block len ≤ firstStart len regions) (stop' : ℕ) :
    partsIn ranges len plan missing z block stop' regions = [] := by
  induction regions generalizing stop stop' with
  | nil => rfl
  | cons region regions ih =>
    obtain ⟨hlow, hle, hrest⟩ := hapart
    have hnext := le_firstStart hrest
    rw [firstStart, List.foldr_cons, ← firstStart] at hlate
    rw [partsIn_cons, partsAt_eq hlen hfield hrest.le]
    by_cases hsome : region.stop > region.start
    · rw [if_pos hsome] at hlate
      rw [if_neg fun h => absurd h.2.1 (Nat.not_lt_of_le hlate), ih hrest (by omega),
        List.nil_append]
    · rw [if_neg hsome] at hlate
      rw [if_neg fun h => hsome h.1, ih hrest hlate, List.nil_append]

variable (ranges z) in
theorem partsIn_missing (hmissing : missing.get block = true) (hapart : Apart stop len regions)
    (stop' : ℕ) :
    (∀ part ∈ partsIn ranges len plan missing z block stop' regions, part = .missing block) ∧
      ∀ region ∈ regions, region.start < region.stop → region.start < blockStop block len →
        block * BLOCK_SIZE < region.stop →
        partsIn ranges len plan missing z block stop' regions ≠ [] := by
  induction regions generalizing stop stop' with
  | nil => exact ⟨fun _ h => (nomatch h), fun _ h => (nomatch h)⟩
  | cons region regions ih =>
    obtain ⟨hlow, hle, hrest⟩ := hapart
    obtain ⟨hall, hsome⟩ := ih hrest (if region.stop > region.start then region.stop else stop')
    rw [partsIn_cons, partsAt_eq hlen hfield hrest.le, hashBlock_missing hmissing]
    refine ⟨fun part hpart => ?_, fun other hmem hlt hbefore hafter => ?_⟩
    · rcases List.mem_append.mp hpart with hfirst | hlater
      · split at hfirst
        · exact List.mem_singleton.mp hfirst
        · exact nomatch hfirst
      · exact hall part hlater
    · rcases List.mem_cons.mp hmem with rfl | hmem
      · rw [if_pos ⟨hlt, hbefore, hafter⟩]
        exact List.cons_ne_nil _ _
      · exact List.append_ne_nil_of_right_ne_nil _ (hsome other hmem hlt hbefore hafter)

/-- Zeros from a position on, outside the regions. -/
def Outside (z : ℕ → UInt8) (stop : ℕ) (regions : List Region) : Prop :=
  ∀ p, stop ≤ p → (∀ region ∈ regions, ¬(region.start ≤ p ∧ p < region.stop)) → z p = 0

omit hlen hfield in
theorem Outside.rest {region : Region} (h : Outside z stop (region :: regions))
    (hlow : stop ≤ region.start) (hle : region.start ≤ region.stop) :
    Outside z region.stop regions := by
  intro p hp hnone
  exact h p (by omega) (List.forall_mem_cons.mpr ⟨by omega, hnone⟩)

omit hlen hfield in
theorem Outside.skip {region : Region} (h : Outside z stop (region :: regions))
    (hempty : ¬region.stop > region.start) :
    Outside z stop regions := by
  intro p hp hnone
  exact h p hp (List.forall_mem_cons.mpr ⟨by omega, hnone⟩)

omit hlen hfield in
theorem Outside.zeroOn (h : Outside z stop regions) (hapart : Apart stop len regions) :
    ZeroOn z stop (firstStart len regions) := by
  induction regions generalizing stop with
  | nil => exact fun p hlow _ => h p hlow fun _ hmem => nomatch hmem
  | cons region regions ih =>
    obtain ⟨hlow, hle, hrest⟩ := hapart
    rw [firstStart, List.foldr_cons, ← firstStart]
    by_cases hsome : region.stop > region.start
    · rw [if_pos hsome]
      refine fun p hp hlt => h p hp (List.forall_mem_cons.mpr ⟨by omega, fun other hmem => ?_⟩)
      have := (hrest.mem hmem).1
      have := hrest.low_le hmem
      omega
    · rw [if_neg hsome]
      exact ih (h.skip hsome) (hrest.mono (by omega))

/-- **The pieces after the first bytes of a block.** -/
theorem partsIn_pieces (hmissing : missing.get block = false) (hapart : Apart stop len regions)
    (houtside : Outside (zeroed z plan.field) stop regions) (hafter : block * BLOCK_SIZE < stop)
    {a : ℕ} (hlow : min stop (blockStop block len) ≤ a) (hhigh : a ≤ blockStop block len)
    (hfirst : a ≤ firstStart len regions) :
    ∃ pieces, Spans (zeroed z plan.field) a (blockStop block len) pieces ∧
      partsIn ranges len plan missing z block stop regions =
        pieces.map (pieceOf (zeroed z plan.field) block) := by
  induction regions generalizing stop a with
  | nil =>
    exact ⟨[], ⟨hhigh, fun p hp hlt => houtside p (by omega) fun _ hmem => nomatch hmem⟩, rfl⟩
  | cons region regions ih =>
    obtain ⟨hstart, hle, hrest⟩ := hapart
    rw [firstStart, List.foldr_cons, ← firstStart] at hfirst
    rw [partsIn_cons, partsAt_eq hlen hfield hrest.le]
    by_cases hsome : region.stop > region.start
    · rw [if_pos hsome] at hfirst ⊢
      have hnext := le_firstStart hrest
      by_cases hbefore : region.start < blockStop block len
      · obtain ⟨pieces, hspans, hparts⟩ := ih hrest (houtside.rest hstart hle) (by omega)
          (a := min (blockStop block len) region.stop) (Nat.min_comm _ _).le (Nat.min_le_left _ _)
          ((Nat.min_le_right _ _).trans hnext)
        rw [if_pos ⟨hsome, hbefore, by show _ < region.stop; omega⟩, hparts]
        refine ⟨(region.start, min (blockStop block len) region.stop) :: pieces,
          ⟨hfirst, lt_min hbefore hsome, fun p hp hlt => ?_, hspans⟩, ?_⟩
        · refine houtside p (by omega) (List.forall_mem_cons.mpr ⟨by omega, fun other hmem => ?_⟩)
          have := hrest.low_le hmem
          omega
        · rw [hashBlock_piece hlen hsome hrest.le hbefore (by show _ < region.stop; omega) hmissing
            hafter hstart]
          rfl
      · rw [if_neg fun h => hbefore h.2.1, partsIn_late hlen hfield hrest (by omega)]
        refine ⟨[], ⟨hhigh, fun p hp hlt => ?_⟩, rfl⟩
        refine houtside p (by omega) (List.forall_mem_cons.mpr ⟨by omega, fun other hmem => ?_⟩)
        have := hrest.low_le hmem
        omega
    · rw [if_neg hsome] at hfirst ⊢
      obtain ⟨pieces, hspans, hparts⟩ :=
        ih (hrest.mono (by omega)) (houtside.skip hsome) hafter hlow hhigh hfirst
      exact ⟨pieces, hspans, by rw [if_neg fun h => hsome h.1, hparts, List.nil_append]⟩

/-- **What the regions learned tells the digest of every block.** -/
theorem covers_partsIn {fresh : BlockHasher} (hkind : BlockHasher.new plan.kind = some fresh)
    (hmissing : missing.get block = false) (hapart : Apart stop len regions)
    (houtside : Outside (zeroed z plan.field) stop regions) (hprevious : stop ≤ block * BLOCK_SIZE)
    :
    Covers plan.kind (zeroed z plan.field) (block * BLOCK_SIZE) (blockStop block len) block
      (partsIn ranges len plan missing z block stop regions) := by
  have hblockStop : blockStop block len ≤ len := Nat.min_le_right _ _
  induction regions generalizing stop with
  | nil => exact .untouched fun p hp _ => houtside p (by omega) fun _ hmem => nomatch hmem
  | cons region regions ih =>
    obtain ⟨hstart, hle, hrest⟩ := hapart
    rw [partsIn_cons, partsAt_eq hlen hfield hrest.le]
    by_cases hsome : region.stop > region.start
    · rw [if_pos hsome]
      by_cases hafter : block * BLOCK_SIZE < region.stop
      · have hnext := le_firstStart hrest
        by_cases hbefore : region.start < blockStop block len
        · have hhead : ZeroOn (zeroed z plan.field) (block * BLOCK_SIZE)
              (max (block * BLOCK_SIZE) region.start) := by
            refine fun p hp hlt => houtside p (by omega)
              (List.forall_mem_cons.mpr ⟨by omega, fun other hmem => ?_⟩)
            have := hrest.low_le hmem
            omega
          have hgap := (houtside.rest hstart hle).zeroOn hrest
          rw [if_pos ⟨hsome, hbefore, hafter⟩, hashBlock_leader hlen hsome hrest.le hbefore hafter
            hmissing hkind hprevious hnext hhead hgap]
          by_cases hlast : blockStop block len ≤ firstStart len regions
          · rw [if_pos hlast, partsIn_late hlen hfield hrest hlast, List.append_nil]
            exact .whole
          · obtain ⟨pieces, hspans, hparts⟩ := partsIn_pieces hlen hfield hmissing hrest
              (houtside.rest hstart hle) hafter (a := firstStart len regions) (by omega) (by omega)
              (le_refl _)
            rw [if_neg hlast, hparts]
            exact .led fresh _ pieces hkind (by show _ ≤ firstStart len regions; omega)
              (Nat.lt_of_not_le hlast) hspans
        · rw [if_neg fun h => hbefore h.2.1, partsIn_late hlen hfield hrest (by omega),
            List.append_nil]
          refine .untouched fun p hp hlt => houtside p (by omega)
            (List.forall_mem_cons.mpr ⟨by omega, fun other hmem => ?_⟩)
          have := hrest.low_le hmem
          omega
      · rw [if_neg fun h => hafter h.2.2, List.nil_append]
        exact ih hrest (houtside.rest hstart hle) (by omega)
    · rw [if_neg hsome, if_neg fun h => hsome h.1, List.nil_append]
      exact ih (hrest.mono (by omega)) (houtside.skip hsome) hprevious

end Regions

end Qld.Output
