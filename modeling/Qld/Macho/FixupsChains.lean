import Qld.Macho.FixupsPointers

/-!
# The chains of an image

* `locate_spec` — a fixup is in the segment that holds its address, in memory and in
  the file;
* `Behind` — the order of fixups in segments; `Linked` — every pointer is encoded, with its link;
* `writePointers_spec` — the image holds every pointer;
* `walk_linked` — a chain visits the fixups of its page, in order.
-/

namespace Qld.Macho

open Qld.Lib Read

variable {layout : Layout}

/-! ### Places -/

/-- Where a fixup is. -/
structure PlacedIn (layout : Layout) (x : Located) (segment : OutSegment) : Prop where
  index : layout.segments[x.segment]? = some segment
  start : segment.vmaddr ≤ x.fixup.address
  offset : x.offset = x.fixup.address - segment.vmaddr
  inside : x.offset < segment.filesize
  file : x.file = segment.fileoff + x.offset

theorem saturatingAdd_of_le {a b : ℕ} (h : a + b ≤ U64_MAX) : saturatingAdd a b = a + b :=
  Nat.min_eq_left h

theorem segment_unique {i j addr : ℕ} {s t : OutSegment} (hs : layout.segments[i]? = some s)
    (ht : layout.segments[j]? = some t) (hsl : s.vmaddr ≤ addr) (hsr : addr < s.vmaddr + s.vmsize)
    (htl : t.vmaddr ≤ addr) (htr : addr < t.vmaddr + t.vmsize) : i = j := by
  obtain ⟨hi, rfl⟩ := List.getElem?_eq_some_iff.mp hs
  obtain ⟨hj, rfl⟩ := List.getElem?_eq_some_iff.mp ht
  have hordered := List.pairwise_iff_getElem.mp layout.ordered
  rcases Nat.lt_trichotomy i j with hlt | heq | hlt
  · have := hordered i j hi hj hlt
    omega
  · exact heq
  · have := hordered j i hj hi hlt
    omega

/-- **A fixup is in the segment that holds its address.** -/
theorem locate_spec {fixup : Fixup} {x : Located} (h : locate layout fixup = .ok x) :
    x.fixup = fixup ∧ ∃ segment, PlacedIn layout x segment := by
  obtain ⟨⟨i, offset⟩, hplace, h⟩ := bind_eq_ok.mp h
  obtain ⟨file, hfile, h⟩ := bind_eq_ok.mp h
  obtain rfl := Except.ok.inj h
  obtain ⟨⟨s, k⟩, hmem, hs⟩ := List.exists_of_findSome?_eq_some (okOrElse_eq_ok.mp hplace)
  rw [Option.ite_none_right_eq_some] at hs
  obtain ⟨⟨hsl, hsr, -⟩, hs⟩ := hs
  obtain ⟨rfl, rfl⟩ := Prod.mk.inj (Option.some.inj hs)
  have hindex := List.mk_mem_zipIdx_iff_getElem?.mp hmem
  obtain ⟨t, ht, rfl⟩ := Option.map_eq_some_iff.mp (okOrElse_eq_ok.mp hfile)
  have htc := List.find?_some ht
  rw [decide_eq_true_eq] at htc
  obtain ⟨-, htl, htr⟩ := htc
  obtain ⟨hsizes, hstop, -, -⟩ := layout.inside s (List.mem_of_getElem? hindex)
  have htmem := List.mem_of_find?_eq_some ht
  obtain ⟨htsizes, htstop, htfile, -⟩ := layout.inside t htmem
  dsimp only at hsl hsr hindex
  rw [saturatingAdd_of_le hstop] at hsr
  rw [saturatingAdd_of_le (by omega)] at htr
  obtain ⟨j, htindex⟩ := List.getElem?_of_mem htmem
  obtain rfl := segment_unique hindex htindex hsl hsr htl (by omega)
  obtain rfl := Option.some.inj (hindex.symm.trans htindex)
  refine ⟨rfl, s, hindex, hsl, rfl, by dsimp only; omega, saturatingAdd_of_le (by omega)⟩

/-! ### Order -/

/-- A fixup is followed by another: in a later segment, or further on in the same one. -/
def Behind (x y : Located) : Prop :=
  x.segment < y.segment ∨ (x.segment = y.segment ∧ x.offset + 8 ≤ y.offset)

theorem behind_of_address {x y : Located} {s t : OutSegment} (hx : PlacedIn layout x s)
    (hy : PlacedIn layout y t) (h : x.fixup.address + 8 ≤ y.fixup.address) : Behind x y := by
  have hxo := hx.offset
  have hyo := hy.offset
  have hxs := hx.start
  have hys := hy.start
  have hyi := hy.inside
  have htsizes := (layout.inside t (List.mem_of_getElem? hy.index)).1
  obtain ⟨hi, hs⟩ := List.getElem?_eq_some_iff.mp hx.index
  obtain ⟨hj, ht⟩ := List.getElem?_eq_some_iff.mp hy.index
  rcases Nat.lt_trichotomy x.segment y.segment with hlt | heq | hlt
  · exact .inl hlt
  · have hst : s = t := by
      have hindex := hx.index
      rw [heq, hy.index] at hindex
      exact (Option.some.inj hindex).symm
    subst hst
    exact .inr ⟨heq, by omega⟩
  · have hordered := List.pairwise_iff_getElem.mp layout.ordered _ _ hj hi hlt
    rw [hs, ht] at hordered
    omega

/-- The fixup after one of another page is not of the first one's page, nor are those behind it. -/
theorem samePage_of_behind {pageSize : ℕ} {x y z : Located} (hxy : Behind x y) (hyz : Behind y z)
    (hy : samePage pageSize x y = false) : samePage pageSize x z = false := by
  rw [samePage, Bool.and_eq_false_iff, decide_eq_false_iff_not, decide_eq_false_iff_not] at hy ⊢
  rcases hxy with hxy | ⟨hxy, hxo⟩
  · left
    rcases hyz with hyz | ⟨hyz, -⟩ <;> omega
  · rcases hyz with hyz | ⟨hyz, hyo⟩
    · left
      omega
    · right
      have hpage := hy.resolve_left (not_not.mpr hxy.symm)
      have hle := Nat.div_le_div_right (c := pageSize) (by omega : x.offset ≤ y.offset)
      have hle' := Nat.div_le_div_right (c := pageSize) (by omega : y.offset ≤ z.offset)
      omega

/-! ### Writing -/

section Write

variable {format chosen : PointerFormat} {imageBase pageSize : ℕ} {imports : ImportsFormat}
  {table : List (ℕ × ℤ)}

/-- Every pointer is encoded with its link, and stands in the image. -/
def Linked (format chosen : PointerFormat) (imageBase pageSize : ℕ) (imports : ImportsFormat)
    (table : List (ℕ × ℤ)) (image : List UInt8) : List Located → Prop
  | [] => True
  | x :: following =>
    (∃ next raw, nextOf format pageSize x following = .ok next ∧
      encode format chosen imageBase imports table x.fixup next = .ok raw ∧
      StandsAt image x.file (leBytes 8 raw)) ∧
    Linked format chosen imageBase pageSize imports table image following

/-- The fields of two fixups do not overlap in the file. -/
def FilesApart (x y : Located) : Prop := x.file + 8 ≤ y.file ∨ y.file + 8 ≤ x.file

/-- **The image holds every pointer, and nothing else changes.** -/
theorem writePointers_spec (located : List Located) : ∀ {image final : List UInt8},
    located.Pairwise FilesApart →
    writePointers format chosen imageBase pageSize imports table located image = .ok final →
    (∀ pos bytes, StandsAt image pos bytes →
      (∀ x ∈ located, pos + bytes.length ≤ x.file ∨ x.file + 8 ≤ pos) →
      StandsAt final pos bytes) ∧
    Linked format chosen imageBase pageSize imports table final located := by
  induction located with
  | nil =>
    intro image final _ h
    obtain rfl := Except.ok.inj h
    exact ⟨fun pos bytes hat _ => hat, trivial⟩
  | cons x following ih =>
    intro image final hapart h
    rw [writePointers] at h
    obtain ⟨next, hnext, h⟩ := bind_eq_ok.mp h
    obtain ⟨raw, hraw, h⟩ := bind_eq_ok.mp h
    obtain ⟨mid, hmid, h⟩ := bind_eq_ok.mp h
    have hput := okOrElse_eq_ok.mp hmid
    rw [putLe, Option.ite_none_right_eq_some] at hput
    obtain ⟨hfits, hput⟩ := hput
    obtain rfl := Option.some.inj hput
    have hlen : x.file + (leBytes 8 raw).length ≤ image.length := by
      rw [length_leBytes]
      exact hfits
    obtain ⟨hx, hrest⟩ := List.pairwise_cons.mp hapart
    obtain ⟨hkeep, hlinked⟩ := ih hrest h
    refine ⟨fun pos bytes hat hfree => ?_, ⟨next, raw, hnext, hraw, ?_⟩, hlinked⟩
    · obtain ⟨hfree, hfrees⟩ := List.forall_mem_cons.mp hfree
      refine hkeep pos bytes (hat.overwrite hlen ?_) hfrees
      rw [length_leBytes]
      exact hfree
    · refine hkeep x.file (leBytes 8 raw) (standsAt_overwrite hlen) fun y hy => ?_
      rw [length_leBytes]
      exact hx y hy

variable {image : List UInt8}

/-- What is known of a pointer from its place in the list. -/
theorem Linked.of_append {before after : List Located}
    (h : Linked format chosen imageBase pageSize imports table image (before ++ after)) :
    Linked format chosen imageBase pageSize imports table image after := by
  induction before with
  | nil => exact h
  | cons x before ih => exact ih h.2

/-! ### Following a chain -/

variable {x : Located} {following : List Located}

theorem nextOf_spec {next : ℕ} (h : nextOf format pageSize x following = .ok next) :
    next < 2 ^ format.nextBits ∧ ((∀ y, following.head? = some y → samePage pageSize x y = false) →
      next = 0) ∧ ∀ y, following.head? = some y → samePage pageSize x y = true →
        y.offset - x.offset = next * format.stride := by
  rw [nextOf] at h
  cases hhead : following.head? with
  | none =>
    rw [hhead] at h
    obtain rfl := Except.ok.inj h
    exact ⟨Nat.two_pow_pos _, fun _ => rfl, fun y hy => (nomatch hy)⟩
  | some y =>
    rw [hhead, Option.filter_some] at h
    cases hsame : samePage pageSize x y with
    | false =>
      rw [hsame] at h
      obtain rfl := Except.ok.inj h
      refine ⟨Nat.two_pow_pos _, fun _ => rfl, fun z hz hz' => ?_⟩
      obtain rfl := Option.some.inj hz
      rw [hsame] at hz'
      exact nomatch hz'
    | true =>
      rw [hsame, if_pos rfl] at h
      dsimp only at h
      split at h
      · next hfits =>
        obtain rfl := Except.ok.inj h
        have hpos := Nat.two_pow_pos format.nextBits
        refine ⟨by omega, fun hall => ?_, fun z hz _ => ?_⟩
        · rw [hall y rfl] at hsame
          exact nomatch hsame
        · obtain rfl := Option.some.inj hz
          exact (Nat.div_mul_cancel (Nat.dvd_of_mod_eq_zero hfits.1)).symm
      · exact nomatch h

/-- What the encoding of a list of fixups relies on. -/
structure Encodes (format chosen : PointerFormat) (imageBase : ℕ) (imports : ImportsFormat)
    (table : List (ℕ × ℤ)) (fixups : List Fixup) : Prop where
  chosen : chosen = .ptr64 ↔ format = .ptr64
  base : imageBase < 2 ^ 64
  table : table.length < 2 ^ 24
  plain : ∀ f ∈ fixups, ∀ symbol addend, f.kind = .bind symbol addend → imports = .plain →
    inlineRoom format f addend = true

variable {fixups : List Fixup}

theorem Linked.read
    (h : Linked format chosen imageBase pageSize imports table image (x :: following))
    (henc : Encodes format chosen imageBase imports table fixups) (hmem : x.fixup ∈ fixups) :
    ∃ next raw, nextOf format pageSize x following = .ok next ∧
      readLe 8 image x.file = some raw ∧ nextField chosen raw = next ∧
      Says table x.fixup.kind (heldAuth format x.fixup) (decode chosen imageBase raw) := by
  obtain ⟨next, raw, hnext, hraw, hat⟩ := h.1
  obtain ⟨hlt, hlink, hsaid⟩ := encode_spec henc.chosen henc.base henc.table (nextOf_spec hnext).1
    (henc.plain _ hmem) hraw
  exact ⟨next, raw, hnext, readLe_of_standsAt hat (by decide) hlt, hlink, hsaid⟩

/-- **A chain visits the fixups of its page, in order.** -/
theorem walk_linked (henc : Encodes format chosen imageBase imports table fixups)
    (following : List Located) :
    ∀ {x : Located} {fuel : ℕ},
      Linked format chosen imageBase pageSize imports table image (x :: following) →
      (x :: following).Pairwise Behind →
      (∀ y ∈ x :: following, y.fixup ∈ fixups ∧ ∃ segment, PlacedIn layout y segment) →
      following.length < fuel →
      walk chosen image fuel x.file =
        some (((x :: following).filter (samePage pageSize x)).map Located.file) := by
  induction following with
  | nil =>
    intro x fuel hlinked _ hplaced hfuel
    obtain ⟨fuel, rfl⟩ := Nat.exists_eq_succ_of_ne_zero (Nat.ne_of_gt hfuel)
    obtain ⟨next, raw, hnext, hread, hlink, -⟩ :=
      hlinked.read henc (hplaced x List.mem_cons_self).1
    have hzero := (nextOf_spec hnext).2.1 fun y hy => (nomatch hy)
    have hself : samePage pageSize x x = true := by
      rw [samePage, decide_eq_true rfl, decide_eq_true rfl]
      rfl
    rw [walk, hread, Option.bind_eq_bind, Option.bind_some, if_pos (hlink.trans hzero),
      List.filter_cons_of_pos hself]
    rfl
  | cons y following ih =>
    intro x fuel hlinked hbehind hplaced hfuel
    obtain ⟨fuel, rfl⟩ := Nat.exists_eq_succ_of_ne_zero (Nat.ne_of_gt (Nat.zero_lt_of_lt hfuel))
    obtain ⟨next, raw, hnext, hread, hlink, -⟩ :=
      hlinked.read henc (hplaced x List.mem_cons_self).1
    have hself : samePage pageSize x x = true := by
      rw [samePage, decide_eq_true rfl, decide_eq_true rfl]
      rfl
    obtain ⟨hx, hrest⟩ := List.pairwise_cons.mp hbehind
    have hxy := hx y List.mem_cons_self
    rw [walk, hread, Option.bind_eq_bind, Option.bind_some, hlink, List.filter_cons_of_pos hself]
    cases hsame : samePage pageSize x y with
    | false =>
      -- the chain ends here, and no later fixup is in the page
      have hzero := (nextOf_spec hnext).2.1 fun z hz => Option.some.inj hz ▸ hsame
      have hnone : (y :: following).filter (samePage pageSize x) = [] := by
        refine List.filter_eq_nil_iff.mpr fun z hz => ?_
        rw [Bool.not_eq_true]
        rcases List.mem_cons.mp hz with rfl | hz
        · exact hsame
        · exact samePage_of_behind hxy ((List.pairwise_cons.mp hrest).1 z hz) hsame
      rw [if_pos hzero, hnone]
      rfl
    | true =>
      have hdistance := (nextOf_spec hnext).2.2 y rfl hsame
      rw [samePage, Bool.and_eq_true, decide_eq_true_eq, decide_eq_true_eq] at hsame
      have hoffset : x.offset + 8 ≤ y.offset := by
        rcases hxy with hlt | ⟨-, hle⟩
        · omega
        · exact hle
      have hstride : chosen.stride = format.stride := by
        rw [PointerFormat.stride, PointerFormat.stride, if_congr henc.chosen rfl rfl]
      have hfile : y.file = x.file + next * chosen.stride := by
        obtain ⟨-, s, hs⟩ := hplaced x List.mem_cons_self
        obtain ⟨-, t, ht⟩ := hplaced y (List.mem_cons_of_mem _ List.mem_cons_self)
        have hst := ht.index
        rw [hsame.1, hs.index] at hst
        obtain rfl := Option.some.inj hst
        rw [hs.file, ht.file, hstride, ← hdistance]
        omega
      have hne : next ≠ 0 := by
        rintro rfl
        rw [Nat.zero_mul] at hdistance
        omega
      have hpage : samePage pageSize x = samePage pageSize y := by
        funext z
        rw [samePage, samePage, hsame.1, hsame.2]
      rw [if_neg hne, ← hfile, ih hlinked.2 hrest (fun z hz => hplaced z (List.mem_cons_of_mem _ hz))
        (by rw [List.length_cons] at hfuel; omega), hpage]
      rfl

end Write

end Qld.Macho
