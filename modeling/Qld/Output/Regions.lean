import Mathlib.Data.UInt
import Qld.Lib.Span
import Qld.Output.Written

/-!
# The regions of a layout

* `regionsOf` — the regions of chunks in groups; `planRegions_groups` — planning groups
  consecutive chunks;
* `Apart` — regions in order; `apart_planRegions` — those of an accepted layout are;
* `contentAt` — what the file is to hold at a position;
* `runRegion_buffer` — a region's buffer is a stretch of it.
-/

namespace Qld.Output

open Qld.Lib
open Qld.Lib (checkedAdd saturatingAdd saturatingAdd_of_lt)

/-! ### Groups of chunks -/

/-- One past the last byte of a chunk. -/
def ChunkRange.past (range : ChunkRange) : ℕ := range.offset + range.size

/-- Where a group of chunks starts. -/
def startOf (group : List ChunkRange) : ℕ := (group.head?.map ChunkRange.offset).getD 0

/-- Where a group of chunks stops. -/
def stopOf (group : List ChunkRange) : ℕ := (group.getLast?.map ChunkRange.past).getD 0

/-- The regions of chunks in groups, the first of which has the given index. -/
def regionsOf : (index : ℕ) → List (List ChunkRange) → List Region
  | _, [] => []
  | index, group :: groups =>
    ⟨startOf group, stopOf group, index, group.length⟩ :: regionsOf (index + group.length) groups

theorem regionsOf_append (groups groups' : List (List ChunkRange)) (index : ℕ) :
    regionsOf index (groups ++ groups') =
      regionsOf index groups ++ regionsOf (index + groups.flatten.length) groups' := by
  induction groups generalizing index with
  | nil => rfl
  | cons group groups ih =>
    rw [List.cons_append, regionsOf, regionsOf, ih, List.flatten_cons, List.length_append,
      List.cons_append, Nat.add_assoc]

variable {low high len : ℕ}

theorem LaidOut.append {A B : List ChunkRange} (h : LaidOut low high (A ++ B)) :
    ∃ mid, LaidOut low mid A ∧ LaidOut mid high B := by
  induction A generalizing low with
  | nil => exact ⟨low, le_refl low, h⟩
  | cons range A ih =>
    obtain ⟨mid, hA, hB⟩ := ih h.2
    exact ⟨mid, ⟨h.1, hA⟩, hB⟩

theorem LaidOut.stopOf_le {low high : ℕ} {group : List ChunkRange} (h : LaidOut low high group)
    (hne : group ≠ []) : low ≤ startOf group ∧ stopOf group ≤ high ∧
      LaidOut (startOf group) (stopOf group) group := by
  induction group generalizing low with
  | nil => exact absurd rfl hne
  | cons range group ih =>
    cases group with
    | nil => exact ⟨h.1, h.2, le_refl _, le_refl _⟩
    | cons next group =>
      obtain ⟨hstart, hstop, hlaid⟩ := ih h.2 (List.cons_ne_nil next group)
      have hsame : stopOf (range :: next :: group) = stopOf (next :: group) := by
        rw [stopOf, List.getLast?_cons_cons, stopOf]
      rw [hsame]
      exact ⟨h.1, hstop, le_refl _, hlaid.mono hstart⟩

variable {groups : List (List ChunkRange)}

theorem addChunk_groups (hne : ∀ group ∈ groups, group ≠ []) {range : ChunkRange}
    (hlaid : LaidOut low high (groups.flatten ++ [range])) (hhigh : high < 2 ^ 64) (key : Option ℕ)
    :
    ∃ groups', (∀ group ∈ groups', group ≠ []) ∧ groups'.flatten = groups.flatten ++ [range] ∧
      (addChunk (regionsOf 0 groups, key) (range, groups.flatten.length)).1 =
        regionsOf 0 groups' := by
  obtain ⟨mid, hbefore, hrange⟩ := hlaid.append
  have hpast : saturatingAdd range.offset range.size = range.past :=
    saturatingAdd_of_lt (Nat.lt_of_le_of_lt hrange.2 hhigh)
  have hnew : ∃ groups', (∀ group ∈ groups', group ≠ []) ∧
      groups'.flatten = groups.flatten ++ [range] ∧
      regionsOf 0 groups ++ [⟨range.offset, range.past, groups.flatten.length, 1⟩] =
        regionsOf 0 groups' := by
    refine ⟨groups ++ [[range]], ?_, ?_, ?_⟩
    · refine fun group hgroup => (List.mem_append.mp hgroup).elim (hne group) fun hlast => ?_
      rw [List.mem_singleton.mp hlast]
      exact List.cons_ne_nil _ _
    · rw [List.flatten_append, List.flatten_singleton]
    · rw [regionsOf_append, Nat.zero_add]
      rfl
  rw [addChunk, hpast]
  rcases List.eq_nil_or_concat groups with hnil | ⟨front, last, hlast⟩
  · subst hnil
    exact hnew
  · rw [List.concat_eq_append] at hlast
    have hregions : regionsOf 0 groups = regionsOf 0 front ++
        [⟨startOf last, stopOf last, front.flatten.length, last.length⟩] := by
      rw [hlast, regionsOf_append, Nat.zero_add]
      rfl
    have hlastne : last ≠ [] := hne last (by rw [hlast]; exact List.mem_append_right _ List.mem_cons_self)
    rw [hregions, List.getLast?_concat, ← hregions]
    simp only
    split
    · refine ⟨front ++ [last ++ [range]], ?_, ?_, ?_⟩
      · refine fun group hgroup => (List.mem_append.mp hgroup).elim (fun hfront => ?_) fun hend => ?_
        · exact hne group (by rw [hlast]; exact List.mem_append_left _ hfront)
        · rw [List.mem_singleton.mp hend]
          exact List.append_ne_nil_of_left_ne_nil hlastne _
      · rw [hlast, List.flatten_append, List.flatten_append, List.flatten_singleton,
          List.flatten_singleton, List.append_assoc]
      · have hstop : max (stopOf last) range.past = stopOf (last ++ [range]) := by
          have hle : stopOf last ≤ range.past := by
            rw [hlast, List.flatten_append, List.flatten_singleton] at hbefore
            obtain ⟨_, -, hin⟩ := hbefore.append
            have := (hin.stopOf_le hlastne).2.1
            have := hrange.1
            rw [ChunkRange.past]
            omega
          rw [Nat.max_eq_right hle, stopOf, List.getLast?_concat]
          rfl
        have hstart : startOf last = startOf (last ++ [range]) := by
          cases last with
          | nil => exact absurd rfl hlastne
          | cons first rest => rfl
        rw [hregions, List.dropLast_concat, regionsOf_append, Nat.zero_add, hstop, regionsOf,
          List.length_append, List.length_singleton, ← hstart]
        rfl
    · exact hnew

variable {ranges : List ChunkRange}

/-- **Planning groups consecutive chunks.** -/
theorem planRegions_groups (hlen : len < 2 ^ 64) (hlaid : LaidOut 0 len ranges) :
    ∃ groups, (∀ group ∈ groups, group ≠ []) ∧ groups.flatten = ranges ∧
      planRegions ranges = regionsOf 0 groups := by
  rw [planRegions]
  induction ranges using List.reverseRecOn generalizing len with
  | nil => exact ⟨[], fun _ h => (nomatch h), rfl, rfl⟩
  | append_singleton before range ih =>
    obtain ⟨mid, hbefore, hrange⟩ := hlaid.append
    obtain ⟨groups, hne, rfl, hfold⟩ := ih (Nat.lt_of_le_of_lt hrange.le hlen) hbefore
    rw [List.zipIdx_append, List.foldl_append, Nat.zero_add]
    generalize groups.flatten.zipIdx.foldl addChunk ([], none) = s at hfold ⊢
    obtain ⟨regions, key⟩ := s
    obtain rfl : regions = regionsOf 0 groups := hfold
    exact addChunk_groups hne hlaid hlen key

variable {region : Region}

theorem mem_regionsOf {index : ℕ} (h : region ∈ regionsOf index groups) :
    ∃ front group back, groups = front ++ group :: back ∧
      region = ⟨startOf group, stopOf group, index + front.flatten.length, group.length⟩ := by
  induction groups generalizing index with
  | nil => exact nomatch h
  | cons group groups ih =>
    rcases List.mem_cons.mp h with rfl | hrest
    · exact ⟨[], group, groups, rfl, rfl⟩
    · obtain ⟨front, found, back, rfl, rfl⟩ := ih hrest
      refine ⟨group :: front, found, back, rfl, ?_⟩
      rw [List.flatten_cons, List.length_append, Nat.add_assoc]

/-! ### Regions in order -/

/-- Regions in order and apart, between two positions. -/
def Apart : (low high : ℕ) → List Region → Prop
  | low, high, [] => low ≤ high
  | low, high, region :: regions =>
    low ≤ region.start ∧ region.start ≤ region.stop ∧ Apart region.stop high regions

variable {regions : List Region}

theorem Apart.le :
    ∀ {low : ℕ}, Apart low high regions → low ≤ high := by
  induction regions with
  | nil => exact fun h => h
  | cons region regions ih =>
    intro low h
    exact h.1.trans (h.2.1.trans (ih h.2.2))

theorem Apart.mono {low' : ℕ} (h : Apart low high regions) (hle : low' ≤ low) :
    Apart low' high regions := by
  cases regions with
  | nil => exact hle.trans h
  | cons region regions => exact ⟨hle.trans h.1, h.2⟩

theorem Apart.mem (h : Apart low high regions) (hmem : region ∈ regions) :
    region.start ≤ region.stop ∧ region.stop ≤ high := by
  induction regions generalizing low with
  | nil => exact nomatch hmem
  | cons first regions ih =>
    rcases List.mem_cons.mp hmem with rfl | hrest
    · exact ⟨h.2.1, h.2.2.le⟩
    · exact ih h.2.2 hrest

theorem Apart.low_le (h : Apart low high regions) (hmem : region ∈ regions) :
    low ≤ region.start := by
  induction regions generalizing low with
  | nil => exact nomatch hmem
  | cons first regions ih =>
    rcases List.mem_cons.mp hmem with rfl | hrest
    · exact h.1
    · exact h.1.trans (h.2.1.trans (ih h.2.2 hrest))

theorem apart_regionsOf (hne : ∀ group ∈ groups, group ≠ []) (h : LaidOut low high groups.flatten)
    (index : ℕ) :
    Apart low high (regionsOf index groups) := by
  induction groups generalizing low index with
  | nil => exact h
  | cons group groups ih =>
    rw [List.flatten_cons] at h
    obtain ⟨mid, hgroup, hrest⟩ := h.append
    obtain ⟨hstart, hstop, hin⟩ := hgroup.stopOf_le (hne group List.mem_cons_self)
    exact ⟨hstart, hin.le, (ih (fun g hg => hne g (List.mem_cons_of_mem _ hg)) hrest _).mono hstop⟩

/-- **The regions of an accepted layout are in order.** -/
theorem apart_planRegions (hlen : len < 2 ^ 64) (hlaid : LaidOut 0 len ranges) :
    Apart 0 len (planRegions ranges) := by
  obtain ⟨groups, hne, rfl, hregions⟩ := planRegions_groups hlen hlaid
  rw [hregions]
  exact apart_regionsOf hne hlaid 0

/-! ### What the file is to hold -/

/-- The chunks with their bytes. -/
def segments (ranges : List ChunkRange) (content : ℕ → List UInt8) : List (ℕ × List UInt8) :=
  ranges.zipIdx.map fun x => (x.1.offset, content x.2)

/-- What the file is to hold at a position: the byte of a chunk, or zero. -/
def contentAt (ranges : List ChunkRange) (content : ℕ → List UInt8) : ℕ → UInt8 :=
  byteAt (segments ranges content)

theorem LaidOut.mem (h : LaidOut low high ranges) {range : ChunkRange} (hmem : range ∈ ranges) :
    low ≤ range.offset ∧ range.past ≤ high := by
  induction ranges generalizing low with
  | nil => exact nomatch hmem
  | cons first ranges ih =>
    rcases List.mem_cons.mp hmem with rfl | hrest
    · exact ⟨h.1, h.2.le⟩
    · obtain ⟨hlow, hhigh⟩ := ih h.2 hrest
      have := h.1
      exact ⟨by omega, hhigh⟩

section Contents

variable {ranges : List ChunkRange} {content : ℕ → List UInt8} {low len : ℕ}

theorem ordered_segments (hlaid : LaidOut low len ranges)
    (hsize : ∀ i range, ranges[i]? = some range → (content i).length = range.size) :
    Ordered (segments ranges content) := by
  have hgen : ∀ (k low : ℕ), LaidOut low len ranges →
      (∀ i range, ranges[i]? = some range → (content (k + i)).length = range.size) →
      Ordered ((ranges.zipIdx k).map fun x => (x.1.offset, content x.2)) := by
    clear hlaid hsize
    induction ranges with
    | nil => exact fun _ _ _ _ => List.Pairwise.nil
    | cons range ranges ih =>
      intro k low hlaid hsize
      rw [List.zipIdx_cons, List.map_cons]
      refine List.pairwise_cons.mpr ⟨fun a ha => ?_, ih (k + 1) _ hlaid.2 fun i r hi => ?_⟩
      · obtain ⟨x, hx, rfl⟩ := List.mem_map.mp ha
        show range.offset + (content k).length ≤ x.1.offset
        rw [show (content k).length = range.size from hsize 0 range rfl]
        exact (hlaid.2.mem (List.fst_mem_of_mem_zipIdx hx)).1
      · rw [Nat.add_assoc, Nat.add_comm 1]
        exact hsize (i + 1) r hi
  exact hgen 0 low hlaid fun i range hi => by rw [Nat.zero_add]; exact hsize i range hi

/-- **A chunk's bytes are a stretch of the file.** -/
theorem content_eq_span (hlaid : LaidOut low len ranges)
    (hsize : ∀ i range, ranges[i]? = some range → (content i).length = range.size)
    {i : ℕ} {range : ChunkRange} (hi : ranges[i]? = some range) :
    content i = span (contentAt ranges content) range.offset range.past := by
  have hmem : (range.offset, content i) ∈ segments ranges content :=
    List.mem_map.mpr ⟨(range, i), List.mem_zipIdx_iff_getElem?.mpr hi, rfl⟩
  have hlen : range.past - range.offset = (content i).length := by
    rw [hsize i range hi, ChunkRange.past, Nat.add_sub_cancel_left]
  refine eq_span hlen.symm fun j hj => ?_
  rw [hlen] at hj
  rw [contentAt, byteAt_of_mem _ (ordered_segments hlaid hsize) _ hmem j hj,
    List.getElem?_eq_getElem hj, List.getD_eq_getElem?_getD, List.getElem?_eq_getElem hj]
  rfl

/-- **The file is zero where no chunk is.** -/
theorem contentAt_gap
    (hsize : ∀ i range, ranges[i]? = some range → (content i).length = range.size) {p : ℕ}
    (h : ∀ range ∈ ranges, ¬(range.offset ≤ p ∧ p < range.past)) :
    contentAt ranges content p = 0 := by
  refine byteAt_eq_zero _ _ fun a ha => ?_
  obtain ⟨⟨range, i⟩, hx, rfl⟩ := List.mem_map.mp ha
  have hi := List.mem_zipIdx_iff_getElem?.mp hx
  show ¬(range.offset ≤ p ∧ p < range.offset + (content i).length)
  rw [hsize i range hi]
  exact h range (List.mem_of_getElem? hi)

end Contents

/-! ### The buffer of a region -/

theorem LaidOut.shift (h : LaidOut low high ranges) (start : ℕ) (hle : start ≤ low) :
    LaidOut (low - start) (high - start) (ranges.map fun r => ⟨r.offset - start, r.size⟩) := by
  induction ranges generalizing low with
  | nil => exact Nat.sub_le_sub_right h start
  | cons range ranges ih =>
    have hrest := ih h.2 (by have := h.1; omega)
    refine ⟨Nat.sub_le_sub_right h.1 start, hrest.mono ?_⟩
    have := h.1
    show range.offset - start + range.size ≤ range.offset + range.size - start
    omega

theorem getSlice_append {β : Type} (front middle back : List β) :
    getSlice (front ++ middle ++ back) front.length (front.length + middle.length) =
      some middle := by
  rw [getSlice, if_pos (by rw [List.length_append, List.length_append]; omega), List.append_assoc,
    List.drop_left, Nat.add_sub_cancel_left, List.take_left]

section Buffer

variable {ε : Type} {writer : ChunkWriter ε} {ranges : List ChunkRange} {len : ℕ}
  {content : ℕ → List UInt8}

/-- The writers of the chunks succeed, with the given bytes. -/
def Writes (writer : ChunkWriter ε) (ranges : List ChunkRange) (content : ℕ → List UInt8) : Prop :=
  ∀ i range, ranges[i]? = some range →
    writer.write i (List.replicate range.size 0) = .ok (content i)

theorem Writes.size (h : Writes writer ranges content) (i : ℕ) (range : ChunkRange)
    (hi : ranges[i]? = some range) : (content i).length = range.size := by
  rw [writer.length _ _ _ (h i range hi), List.length_replicate]

/-- What a region learned from its buffer. -/
def partsOf (context : RegionContext) (buf : List UInt8) (start : ℕ) : List BlockPart :=
  match context.plan with
  | some plan =>
    if buf.length > 0 then hashRegion context plan (zeroOverlap buf start plan.field) start else []
  | none => []

/-- **A region's buffer is a stretch of the file.** -/
theorem runRegion_buffer (hlen : len < 2 ^ 64) (hlaid : LaidOut 0 len ranges)
    (hwrites : Writes writer ranges content) {context : RegionContext}
    (hcontext : context.ranges = ranges) {region : Region} (hregion : region ∈ planRegions ranges) :
    runRegion context writer region =
      .ok (span (contentAt ranges content) region.start region.stop,
        partsOf context (span (contentAt ranges content) region.start region.stop)
          region.start) := by
  have hsize := hwrites.size
  obtain ⟨groups, hne, hflat, hregions⟩ := planRegions_groups hlen hlaid
  rw [hregions] at hregion
  obtain ⟨front, group, back, rfl, rfl⟩ := mem_regionsOf hregion
  rw [Nat.zero_add]
  have hranges : ranges = front.flatten ++ group ++ back.flatten := by
    rw [← hflat, List.flatten_append, List.flatten_cons, List.append_assoc]
  have hparts := hlaid
  rw [hranges] at hparts
  obtain ⟨mid', hfirst, hback⟩ := hparts.append
  obtain ⟨mid, hfront, hgroup⟩ := hfirst.append
  obtain ⟨hstart, hstop, hin⟩ :=
    hgroup.stopOf_le (hne group (List.mem_append_right _ List.mem_cons_self))
  have hchunk : ∀ x ∈ group.zipIdx, ranges[front.flatten.length + x.2]? = some x.1 := by
    intro x hx
    have hx := List.mem_zipIdx_iff_getElem?.mp hx
    have hlt : x.2 < group.length := (List.getElem?_eq_some_iff.mp hx).1
    rw [hranges, List.append_assoc, List.getElem?_append_right (Nat.le_add_right _ _),
      Nat.add_sub_cancel_left, List.getElem?_append_left hlt, hx]
  have hlocal := hin.shift (startOf group) (le_refl _)
  rw [Nat.sub_self] at hlocal
  have hsmall : stopOf group - startOf group < 2 ^ 64 := by
    have := hback.le
    omega
  -- The slices are the chunks, from the start of the region on.
  set slices := group.map fun r => (r.offset - startOf group, r.size) with hslices
  have hcontents : slices.zipIdx.mapM
      (fun x => writer.write (front.flatten.length + x.2) (List.replicate x.1.2 0)) =
      .ok (slices.zipIdx.map fun x => content (front.flatten.length + x.2)) := by
    refine mapM_eq_ok_map fun x hx => ?_
    rw [hslices, List.zipIdx_map] at hx
    obtain ⟨y, hy, rfl⟩ := List.mem_map.mp hx
    exact hwrites _ y.1 (hchunk y hy)
  have hbuf : (slices.zip (slices.zipIdx.map fun x =>
      content (front.flatten.length + x.2))).foldl (fun buf x => overwrite buf x.1.1 x.2)
      (List.replicate (stopOf group - startOf group) 0) =
      span (contentAt ranges content) (startOf group) (stopOf group) := by
    have hzip : slices.zip (slices.zipIdx.map fun x => content (front.flatten.length + x.2)) =
        group.zipIdx.map fun x =>
          ((x.1.offset - startOf group, x.1.size), content (front.flatten.length + x.2)) := by
      conv_lhs => arg 1; rw [← List.zipIdx_map_fst 0 slices]
      rw [List.zip_map', hslices, List.zipIdx_map, List.map_map]
      rfl
    have hfold := foldl_overwrite_span (z := contentAt ranges content) (a := startOf group)
      (b := stopOf group) (group.zipIdx.map fun x => (x.1.offset, x.1.past)) (fun _ => 0) ?_ ?_
    · rw [hzip, replicate_eq_span, ← hfold, List.foldl_map, List.foldl_map]
      refine List.foldl_ext _ _ _ fun buf x hx => ?_
      rw [content_eq_span hlaid hsize (hchunk x hx)]
    · intro x hx
      obtain ⟨y, hy, rfl⟩ := List.mem_map.mp hx
      obtain ⟨hlow, hhigh⟩ := hin.mem (List.fst_mem_of_mem_zipIdx hy)
      exact ⟨hlow, Nat.le_add_right _ _, hhigh⟩
    · intro p hlow hhigh hnone
      refine (contentAt_gap hsize fun range hrange hcover => ?_).symm
      rw [hranges, List.mem_append, List.mem_append] at hrange
      rcases hrange with (hbefore | hmem) | hafter
      · have := (hfront.mem hbefore).2
        omega
      · obtain ⟨i, hi⟩ := List.mem_iff_getElem?.mp hmem
        have hzip : (range, i) ∈ group.zipIdx := List.mem_zipIdx_iff_getElem?.mpr hi
        exact hnone _ (List.mem_map.mpr ⟨_, hzip, rfl⟩) hcover
      · have := (hback.mem hafter).1
        omega
  rw [runRegion, hcontext]
  simp only
  rw [hranges, getSlice_append, ← hranges, Option.getD_some, splitChunks_of_laid hsmall hlocal]
  simp only [List.map_map, Function.comp_def]
  rw [hcontents]
  simp only
  rw [hbuf, ← length_span (contentAt ranges content) (startOf group) (stopOf group)]
  rfl

/-- **The file is zero outside the regions.** -/
theorem contentAt_outside (hlen : len < 2 ^ 64) (hlaid : LaidOut 0 len ranges)
    (hsize : ∀ i range, ranges[i]? = some range → (content i).length = range.size) {p : ℕ}
    (h : ∀ region ∈ planRegions ranges, ¬(region.start ≤ p ∧ p < region.stop)) :
    contentAt ranges content p = 0 := by
  obtain ⟨groups, hne, rfl, hregions⟩ := planRegions_groups hlen hlaid
  refine contentAt_gap hsize fun range hrange hcover => ?_
  obtain ⟨group, hgroup, hmem⟩ := List.mem_flatten.mp hrange
  obtain ⟨front, back, rfl⟩ := List.append_of_mem hgroup
  rw [List.flatten_append, List.flatten_cons] at hlaid
  obtain ⟨_, -, hafter⟩ := hlaid.append
  obtain ⟨_, hlaid, -⟩ := hafter.append
  obtain ⟨-, -, hin⟩ := hlaid.stopOf_le (hne group hgroup)
  have hregion : ⟨startOf group, stopOf group, 0 + front.flatten.length, group.length⟩ ∈
      planRegions (front ++ group :: back).flatten := by
    rw [hregions, regionsOf_append]
    exact List.mem_append_right _ List.mem_cons_self
  obtain ⟨hlow, hhigh⟩ := hin.mem hmem
  exact h _ hregion ⟨hlow.trans hcover.1, Nat.lt_of_lt_of_le hcover.2 hhigh⟩

end Buffer

/-! ### Neighbours -/

/-- The regions, each with the end of the bytes before it and the start of the bytes after it. -/
def neighbours (len stop : ℕ) (regions : List Region) : List (Region × ℕ × ℕ) :=
  regions.zip ((previousEnds stop regions).zip (nextStarts len regions))

/-- Where the first region with bytes starts, or the length of the file. -/
def firstStart (len : ℕ) (regions : List Region) : ℕ :=
  regions.foldr (fun region start => if region.stop > region.start then region.start else start) len

theorem nextStarts_cons (len : ℕ) (region : Region) (regions : List Region) :
    nextStarts len (region :: regions) = firstStart len regions :: nextStarts len regions := by
  have hfirst : ∀ regions : List Region, (regions.foldr (fun region s =>
      (s.2 :: s.1, if region.stop > region.start then region.start else s.2))
      (([] : List ℕ), len)).2 = firstStart len regions := by
    intro regions
    induction regions with
    | nil => rfl
    | cons region regions ih =>
      rw [List.foldr_cons, firstStart, List.foldr_cons, ih]
      rfl
  rw [nextStarts, List.foldr_cons, hfirst]
  rfl

theorem neighbours_cons (len stop : ℕ) (region : Region) (regions : List Region) :
    neighbours len stop (region :: regions) = (region, stop, firstStart len regions) ::
      neighbours len (if region.stop > region.start then region.stop else stop) regions := by
  rw [neighbours, previousEnds, nextStarts_cons]
  rfl

theorem map_fst_neighbours (len stop : ℕ) (regions : List Region) :
    (neighbours len stop regions).map Prod.fst = regions := by
  induction regions generalizing stop with
  | nil => rfl
  | cons region regions ih => rw [neighbours_cons, List.map_cons, ih]

theorem le_firstStart {stop : ℕ} (h : Apart stop len regions) :
    stop ≤ firstStart len regions := by
  induction regions generalizing stop with
  | nil => exact h
  | cons region regions ih =>
    rw [firstStart, List.foldr_cons]
    split
    · exact h.1
    · exact h.1.trans (h.2.1.trans (ih h.2.2))

/-- What the worker of a region with neighbours is given. -/
def contextOf (len : ℕ) (ranges : List ChunkRange) (plan : Option HashPlan)
    (x : Region × ℕ × ℕ) : RegionContext :=
  ⟨ranges, len, x.2.1, x.2.2,
    if plan.isSome then missingBlocks len (planRegions ranges)
      (previousEnds 0 (planRegions ranges)) else Cells.const false, plan⟩

theorem workers_eq (len : ℕ) (ranges : List ChunkRange) (plan : Option HashPlan) :
    workers len ranges plan = (neighbours len 0 (planRegions ranges)).map fun x =>
      (x.1, contextOf len ranges plan x) := rfl

/-! ### The file -/

/-- **The file after the regions were written, and what they learned.** -/
theorem writeChunks_eq {ε : Type} {writer : ChunkWriter ε} {content : ℕ → List UInt8}
    (hlen : len < 2 ^ 64) (hlaid : LaidOut 0 len ranges) (hwrites : Writes writer ranges content)
    (plan : Option HashPlan) {order : List ℕ}
    (horder : order.Perm (List.range (planRegions ranges).length)) :
    writeChunks (List.replicate len 0) len ranges writer plan order =
      (span (contentAt ranges content) 0 len, .ok (plan.map fun plan =>
        ⟨plan, (neighbours len 0 (planRegions ranges)).flatMap fun x =>
          partsOf (contextOf len ranges (some plan) x)
            (span (contentAt ranges content) x.1.start x.1.stop) x.1.start⟩)) := by
  set regions := planRegions ranges with hregions
  set z := contentAt ranges content with hz
  have hapart : Apart 0 len regions := apart_planRegions hlen hlaid
  -- Every region succeeds, with its stretch of the file.
  set done := (neighbours len 0 regions).map fun x => (x.1, (.ok (span z x.1.start x.1.stop,
    partsOf (contextOf len ranges plan x) (span z x.1.start x.1.stop) x.1.start) :
      Except (WriteError ε) (List UInt8 × List BlockPart))) with hdone
  have houtcomes : (workers len ranges plan).map (fun x => (x.1, runRegion x.2 writer x.1)) =
      done := by
    rw [workers_eq, List.map_map, hdone]
    refine List.map_congr_left fun x hx => ?_
    have hmem : x.1 ∈ planRegions ranges := by
      rw [← hregions, ← map_fst_neighbours len 0 regions]
      exact List.mem_map_of_mem hx
    rw [Function.comp_apply, runRegion_buffer hlen hlaid hwrites rfl hmem]
  have hregion : ∀ (i : ℕ) (region : Region), regions[i]? = some region → ∃ parts,
      done[i]? = some (region, Except.ok (span z region.start region.stop, parts)) := by
    intro i region hi
    rw [← map_fst_neighbours len 0 regions, List.getElem?_map, Option.map_eq_some_iff] at hi
    obtain ⟨x, hx, rfl⟩ := hi
    rw [hdone, List.getElem?_map, hx]
    exact ⟨_, rfl⟩
  have hparts : done.mapM Prod.snd = .ok ((neighbours len 0 regions).map fun x =>
      (span z x.1.start x.1.stop,
        partsOf (contextOf len ranges plan x) (span z x.1.start x.1.stop) x.1.start)) :=
    mapM_eq_ok.mpr (List.forall₂_map_left_iff.mpr (List.forall₂_map_right_iff.mpr
      (List.forall₂_same.mpr fun _ _ => rfl)))
  have hmem : ∀ i ∈ order, ∃ region, regions[i]? = some region := fun i hi =>
    ⟨_, List.getElem?_eq_getElem (List.mem_range.mp (horder.mem_iff.mp hi))⟩
  have hfile : ∀ step : List UInt8 → ℕ → List UInt8, (∀ file i region parts,
      done[i]? = some (region, .ok (span z region.start region.stop, parts)) →
        step file i = overwrite file region.start (span z region.start region.stop)) →
      order.foldl step (List.replicate len 0) = span z 0 len := by
    intro step hstep
    set place := fun i : ℕ => ((regions[i]?.map Region.start).getD 0, (regions[i]?.map Region.stop).getD 0)
      with hplace
    have hfold := foldl_overwrite_span (z := z) (a := 0) (b := len) (order.map place) (fun _ => 0)
      ?_ ?_
    · rw [List.foldl_map, ← replicate_eq_span, Nat.sub_zero] at hfold
      rw [← hfold]
      refine List.foldl_ext _ _ _ fun file i hi => ?_
      obtain ⟨region, hi⟩ := hmem i hi
      obtain ⟨parts, hparts⟩ := hregion i region hi
      rw [hstep file i region parts hparts]
      simp only [hplace, hi, Option.map_some, Option.getD_some, Nat.sub_zero]
    · intro x hx
      obtain ⟨i, hi, rfl⟩ := List.mem_map.mp hx
      obtain ⟨region, hi⟩ := hmem i hi
      simp only [hplace, hi, Option.map_some, Option.getD_some]
      exact ⟨Nat.zero_le _, hapart.mem (List.mem_of_getElem? hi)⟩
    · intro p _ _ hnone
      refine (contentAt_outside hlen hlaid hwrites.size fun region hmem hcover => ?_).symm
      obtain ⟨i, hi⟩ := List.mem_iff_getElem?.mp hmem
      have horder : i ∈ order :=
        horder.mem_iff.mpr (List.mem_range.mpr (List.getElem?_eq_some_iff.mp hi).1)
      refine hnone _ (List.mem_map.mpr ⟨i, horder, rfl⟩) ?_
      simpa only [hplace, hregions, hi, Option.map_some, Option.getD_some] using hcover
  rw [writeChunks, houtcomes, hparts]
  refine Prod.ext (hfile _ fun file i region parts hdone => by simp only [hdone]) ?_
  cases plan with
  | none => rfl
  | some plan =>
    show Except.ok (some (Precomputed.mk plan _)) = Except.ok (some (Precomputed.mk plan _))
    rw [List.flatMap_map]

end Qld.Output
