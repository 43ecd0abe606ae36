import Mathlib.Data.List.Pairwise
import Qld.Elf.Rawout

/-!
# The pieces of an image

* `runs_tiles` — the runs of a section follow one another from its start to its end;
* `pieces_cuts` — every loadable section is cut into consecutive pieces that cover it;
* `sorted_perm` — sorting the pieces loses none;
* `binary_spec` — what a flat image holds.
-/

namespace Qld.Elf

open Qld.Lib

/-! ### Runs -/

/-- The members, fills and data of a section lie inside it, and its size is a `u64`. -/
structure OutSection.Inside (s : OutSection) : Prop where
  size : s.size < 2 ^ 64
  members : ∀ placed ∈ s.members, placed.offset + placed.size ≤ s.size
  fills : ∀ fill ∈ s.fills, fill.1 + fill.2.1 ≤ s.size
  data : ∀ data ∈ s.data, data.1 + data.2.length ≤ s.size

variable {s : OutSection}

theorem OutSection.Inside.bounds (h : s.Inside) :
    ∀ bound ∈ s.bounds, bound.1 + bound.2 ≤ s.size := by
  intro bound hbound
  rw [OutSection.bounds, List.mem_mergeSort, List.mem_append, List.mem_append] at hbound
  rcases hbound with (hmember | hfill) | hdata
  · obtain ⟨placed, hplaced, rfl⟩ := List.mem_map.mp hmember
    exact h.members placed (List.mem_filter.mp hplaced).1
  · obtain ⟨fill, hmem, rfl⟩ := List.mem_map.mp hfill
    exact h.fills fill hmem
  · obtain ⟨data, hmem, rfl⟩ := List.mem_map.mp hdata
    exact h.data data hmem

/-- **The runs follow one another to the end of the section.** -/
theorem runs_tiles {size : ℕ} (hsize : size < 2 ^ 64) (bounds : List (ℕ × ℕ)) :
    ∀ cursor, cursor ≤ size → (∀ b ∈ bounds, b.1 + b.2 ≤ size) →
      Tiles cursor size (runs size cursor bounds) := by
  induction bounds with
  | nil =>
    intro cursor hcursor _
    rw [runs]
    split
    · rw [wrappingSub_of_le hcursor hsize]
      exact ⟨rfl, Nat.add_sub_cancel' hcursor⟩
    · exact Nat.le_antisymm hcursor (by omega)
  | cons b bounds ih =>
    obtain ⟨offset, len⟩ := b
    intro cursor hcursor hin
    have hb : offset + len ≤ size := hin _ List.mem_cons_self
    have hrest : ∀ b ∈ bounds, b.1 + b.2 ≤ size := fun b hb => hin b (List.mem_cons_of_mem _ hb)
    rw [runs, saturatingAdd_of_lt (by omega)]
    split
    · split
      · next hstop =>
        rw [wrappingSub_of_le hstop.le (by omega)]
        refine ⟨rfl, ?_⟩
        show Tiles (cursor + (offset + len - cursor)) size _
        rw [Nat.add_sub_cancel' hstop.le]
        exact ih _ hb hrest
      · exact ih _ hcursor hrest
    · next hge =>
      have hbound : Tiles offset size ((offset, len) :: runs size (offset + len) bounds) :=
        ⟨rfl, ih _ hb hrest⟩
      split
      · next hgap =>
        rw [wrappingSub_of_le hgap.le (by omega)]
        refine ⟨rfl, ?_⟩
        show Tiles (cursor + (offset - cursor)) size _
        rw [Nat.add_sub_cancel' hgap.le]
        exact hbound
      · have heq : cursor = offset := by omega
        rw [heq]
        exact hbound

/-! ### Pieces -/

/-- Pieces that follow one another from an address on. -/
def Consecutive : ℕ → List Piece → Prop
  | _, [] => True
  | address, piece :: rest =>
    piece.lma = address % 2 ^ 64 ∧ Consecutive (address + piece.data.length) rest

/-- Non-empty, consecutive pieces that cover a section exactly. -/
structure Cuts (image : List UInt8) (s : OutSection) (ps : List Piece) : Prop where
  inside : s.offset + s.size ≤ image.length
  nonempty : ∀ p ∈ ps, p.data ≠ []
  consecutive : Consecutive s.lma ps
  covers : ps.flatMap Piece.data = (image.drop s.offset).take s.size

theorem cutRun_eq_ok {image : List UInt8} {run : ℕ × ℕ} {p : Piece} (h : cutRun s image run = .ok p)
    :
    s.offset + run.1 + run.2 ≤ image.length ∧
      p = ⟨(s.lma + run.1) % 2 ^ 64, (image.drop (s.offset + run.1)).take run.2⟩ := by
  obtain ⟨data, hdata, h⟩ := bind_eq_ok.mp h
  obtain ⟨start, hstart, hdata⟩ := Option.bind_eq_some_iff.mp (okOrElse_eq_ok.mp hdata)
  obtain ⟨stop, hstop, hdata⟩ := Option.bind_eq_some_iff.mp hdata
  obtain ⟨rfl, -⟩ := checkedAdd_eq_some hstart
  obtain ⟨rfl, -⟩ := checkedAdd_eq_some hstop
  rw [getRange, Option.ite_none_right_eq_some] at hdata
  obtain ⟨⟨-, hle⟩, hdata⟩ := hdata
  rw [Option.some_inj, Nat.add_sub_cancel_left] at hdata
  rw [← Except.ok.inj h, hdata]
  exact ⟨hle, rfl⟩

variable {ps : List Piece}

theorem cutRuns_spec {image : List UInt8} {l : List (ℕ × ℕ)}
    (hcut : List.Forall₂ (fun run p => cutRun s image run = .ok p) l ps) :
    ∀ start stop, Tiles start stop l → (∀ run ∈ l, run.2 ≠ 0) →
      (start ≠ stop → s.offset + stop ≤ image.length) ∧ start ≤ stop ∧ (∀ p ∈ ps, p.data ≠ []) ∧
        Consecutive (s.lma + start) ps ∧
        ps.flatMap Piece.data = (image.drop (s.offset + start)).take (stop - start) := by
  induction hcut with
  | nil =>
    rintro start stop rfl _
    refine ⟨fun h => absurd rfl h, le_rfl, fun p hp => absurd hp List.not_mem_nil, trivial, ?_⟩
    rw [Nat.sub_self, List.take_zero, List.flatMap_nil]
  | @cons run p l ps hp hps ih =>
    rintro start stop ⟨rfl, hrest⟩ hne
    obtain ⟨hle, rfl⟩ := cutRun_eq_ok hp
    obtain ⟨hstop, hlt, hdata, hcons, hcover⟩ := ih _ _ hrest
      (fun r hr => hne r (List.mem_cons_of_mem _ hr))
    have hlen : ((image.drop (s.offset + run.1)).take run.2).length = run.2 := by
      rw [List.length_take, List.length_drop]
      omega
    have hpos := hne run List.mem_cons_self
    refine ⟨?_, by omega, ?_, ⟨rfl, ?_⟩, ?_⟩
    · intro _
      by_cases hlast : run.1 + run.2 = stop
      · omega
      · exact hstop hlast
    · intro q hq
      rcases List.mem_cons.mp hq with rfl | hq
      · exact List.ne_nil_of_length_pos (by rw [hlen]; omega)
      · exact hdata q hq
    · show Consecutive (s.lma + run.1 + ((image.drop (s.offset + run.1)).take run.2).length) ps
      rw [hlen, Nat.add_assoc]
      exact hcons
    · have hsplit : stop - run.1 = run.2 + (stop - (run.1 + run.2)) := by omega
      rw [List.flatMap_cons, hcover, hsplit, List.take_add, List.drop_drop, Nat.add_assoc]

/-- **A section is cut into consecutive pieces that cover it exactly.** -/
theorem sectionPieces_cuts {image : List UInt8} (hin : s.Inside) (hsize : s.size ≠ 0)
    (h : sectionPieces image s = .ok ps) :
    Cuts image s ps := by
  have htiles := tiles_filter _ 0 (runs_tiles hin.size s.bounds 0 (Nat.zero_le _) hin.bounds)
  have hne : ∀ run ∈ (runs s.size 0 s.bounds).filter (fun run => run.2 ≠ 0), run.2 ≠ 0 := by
    intro run hrun
    exact of_decide_eq_true (List.mem_filter.mp hrun).2
  obtain ⟨hinside, -, hdata, hcons, hcover⟩ := cutRuns_spec (mapM_eq_ok.mp h) 0 s.size htiles hne
  exact ⟨hinside hsize.symm, hdata, hcons, hcover⟩

variable {sections : List OutSection}

/-- **Every loadable section is cut into consecutive pieces that cover it exactly.** -/
theorem pieces_cuts {image : List UInt8} (hin : ∀ s ∈ sections, s.loadable → s.Inside)
    (h : pieces sections image = .ok ps) :
    ∃ cuts, List.Forall₂ (Cuts image) (sections.filter OutSection.loadable) cuts ∧
      ps = cuts.flatten := by
  obtain ⟨cuts, hcuts, rfl⟩ := map_eq_ok.mp h
  refine ⟨cuts, ?_, rfl⟩
  refine List.forall₂_iff_zip.mpr ⟨(mapM_eq_ok.mp hcuts).length_eq, fun {s ps} hmem => ?_⟩
  have hs := List.mem_filter.mp (List.of_mem_zip hmem).1
  refine sectionPieces_cuts (hin s hs.1 hs.2) ?_
    ((List.forall₂_iff_zip.mp (mapM_eq_ok.mp hcuts)).2 hmem)
  have hload := hs.2
  simp only [OutSection.loadable, Bool.and_eq_true, decide_eq_true_eq] at hload
  exact hload.2

theorem Consecutive.lma_lt :
    ∀ {address}, Consecutive address ps → ∀ p ∈ ps, p.lma < 2 ^ 64 := by
  induction ps with
  | nil => exact fun _ p hp => absurd hp List.not_mem_nil
  | cons q ps ih =>
    rintro address ⟨hq, hrest⟩
    refine List.forall_mem_cons.mpr ⟨?_, ih hrest⟩
    rw [hq]
    exact Nat.mod_lt _ (Nat.two_pow_pos 64)

/-- The pieces of an image: not empty, and of at most as many bytes. -/
theorem pieces_bounds {image : List UInt8} (hin : ∀ s ∈ sections, s.loadable → s.Inside)
    (h : pieces sections image = .ok ps) :
    ∀ p ∈ ps, p.data ≠ [] ∧ p.data.length ≤ image.length ∧ p.lma < 2 ^ 64 := by
  obtain ⟨cuts, hcuts, rfl⟩ := pieces_cuts hin h
  intro p hp
  obtain ⟨cut, hcut, hp⟩ := List.mem_flatten.mp hp
  obtain ⟨s, -, hs⟩ : ∃ s ∈ sections.filter OutSection.loadable, Cuts image s cut :=
    exists_right_of_forall₂ hcuts.flip cut hcut
  refine ⟨hs.nonempty p hp, ?_, hs.consecutive.lma_lt p hp⟩
  have hsub : p.data.length ≤ (cut.flatMap Piece.data).length :=
    (List.sublist_flatten_of_mem (List.mem_map_of_mem hp)).length_le
  rw [hs.covers, List.length_take, List.length_drop] at hsub
  omega

theorem cutRun_ok {image : List UInt8} {run : ℕ × ℕ} (himage : image.length < 2 ^ 64)
    (h : s.offset + run.1 + run.2 ≤ image.length) :
    ∃ p, cutRun s image run = .ok p := by
  have hstart : checkedAdd s.offset run.1 = some (s.offset + run.1) := if_pos (by omega)
  have hstop : checkedAdd (s.offset + run.1) run.2 = some (s.offset + run.1 + run.2) :=
    if_pos (by omega)
  have hrange : getRange image (s.offset + run.1) (s.offset + run.1 + run.2) =
      some ((image.drop (s.offset + run.1)).take (s.offset + run.1 + run.2 - (s.offset + run.1))) :=
    if_pos ⟨by omega, h⟩
  rw [cutRun, hstart, Option.bind_some, hstop, Option.bind_some, hrange]
  exact ⟨_, rfl⟩

/-- **The image is cut when it holds the loadable sections.** -/
theorem pieces_ok_iff {image : List UInt8} (himage : image.length < 2 ^ 64)
    (hin : ∀ s ∈ sections, s.loadable → s.Inside) :
    (∃ ps, pieces sections image = .ok ps) ↔
      ∀ s ∈ sections, s.loadable → s.offset + s.size ≤ image.length := by
  refine ⟨?_, fun h => ?_⟩
  · rintro ⟨ps, hps⟩ s hs hload
    obtain ⟨cuts, hcuts, -⟩ := pieces_cuts hin hps
    obtain ⟨cut, -, hcut⟩ := exists_right_of_forall₂ hcuts s (List.mem_filter.mpr ⟨hs, hload⟩)
    exact hcut.inside
  · obtain ⟨cuts, hcuts⟩ : ∃ cuts,
        (sections.filter OutSection.loadable).mapM (sectionPieces image) = .ok cuts := by
      refine exists_mapM_eq_ok fun s hs => exists_mapM_eq_ok fun run hrun => ?_
      obtain ⟨hs, hload⟩ := List.mem_filter.mp hs
      have hinside := hin s hs hload
      have htiles := runs_tiles hinside.size s.bounds 0 (Nat.zero_le _) hinside.bounds
      have hrun := (tiles_le _ 0 htiles).2 run (List.mem_filter.mp hrun).1
      have hsection := h s hs hload
      exact cutRun_ok himage (by omega)
    exact ⟨_, map_eq_ok.mpr ⟨cuts, hcuts, rfl⟩⟩

/-! ### Stores -/

/-- The bytes that a piece stores. -/
def Piece.stores (p : Piece) : List (ℕ × UInt8) := Lib.stores (2 ^ 64) p.lma p.data

/-- The bytes that the loadable sections of an image store at their load addresses. -/
def loads (sections : List OutSection) (image : List UInt8) : List (ℕ × UInt8) :=
  (sections.filter OutSection.loadable).flatMap fun s =>
    Lib.stores (2 ^ 64) s.lma ((image.drop s.offset).take s.size)

theorem consecutive_stores (ps : List Piece) :
    ∀ address, Consecutive address ps →
      ps.flatMap Piece.stores = Lib.stores (2 ^ 64) address (ps.flatMap Piece.data) := by
  induction ps with
  | nil => exact fun _ _ => rfl
  | cons p ps ih =>
    rintro address ⟨hp, hrest⟩
    rw [List.flatMap_cons, List.flatMap_cons, stores_append, ih _ hrest, Piece.stores]
    congr 1
    exact stores_congr (by rw [hp, Nat.mod_mod]) _

/-- **The pieces store what the sections store.** -/
theorem pieces_stores {image : List UInt8} (hin : ∀ s ∈ sections, s.loadable → s.Inside)
    (h : pieces sections image = .ok ps) :
    ps.flatMap Piece.stores = loads sections image := by
  obtain ⟨cuts, hcuts, rfl⟩ := pieces_cuts hin h
  rw [loads]
  clear h
  generalize sections.filter OutSection.loadable = loaded at hcuts
  induction hcuts with
  | nil => rfl
  | cons hcut _ ih =>
    rw [List.flatten_cons, List.flatMap_append, List.flatMap_cons, ih,
      consecutive_stores _ _ hcut.consecutive, hcut.covers]

/-! ### Sorting -/

theorem insertSorted_perm (list : List Piece) (piece : Piece) :
    (insertSorted list piece).Perm (piece :: list) := by
  rw [insertSorted]
  split
  · exact List.perm_append_comm
  · split
    · exact List.perm_append_comm
    · refine List.perm_middle.trans ?_
      rw [List.takeWhile_append_dropWhile]

/-- **Sorting loses no piece.** -/
theorem sorted_perm (ps : List Piece) : (sorted ps).Perm ps := by
  have hfold : ∀ list : List Piece, (ps.foldl insertSorted list).Perm (list ++ ps) := by
    induction ps with
    | nil => exact fun list => by rw [List.append_nil]; rfl
    | cons p ps ih =>
      intro list
      refine (ih _).trans ?_
      refine ((insertSorted_perm list p).append_right ps).trans ?_
      exact List.perm_middle.symm
  exact hfold []

/-! ### Binary -/

/-- Loadable sections that do not overlap in load address. -/
def Apart (s t : OutSection) : Prop :=
  ∀ i < s.size, ∀ j < t.size, (s.lma + i) % 2 ^ 64 ≠ (t.lma + j) % 2 ^ 64

theorem loads_functional {image : List UInt8} (hin : ∀ s ∈ sections, s.loadable → s.Inside)
    (hapart : (sections.filter OutSection.loadable).Pairwise Apart) {a : ℕ} {b c : UInt8}
    (hb : (a, b) ∈ loads sections image) (hc : (a, c) ∈ loads sections image) : b = c := by
  have hload : ∀ {d}, (a, d) ∈ loads sections image →
      ∃ s ∈ sections.filter OutSection.loadable, ∃ i < s.size,
        image[s.offset + i]? = some d ∧ a = (s.lma + i) % 2 ^ 64 := by
    intro d hd
    obtain ⟨s, hs, hd⟩ := List.mem_flatMap.mp hd
    obtain ⟨i, hi, ha⟩ := mem_stores.mp hd
    rw [List.getElem?_take, Option.ite_none_right_eq_some, List.getElem?_drop] at hi
    exact ⟨s, hs, i, hi.1, hi.2, ha⟩
  obtain ⟨s, hs, i, hi, hb, hsa⟩ := hload hb
  obtain ⟨t, ht, j, hj, hc, hta⟩ := hload hc
  by_cases hst : s = t
  · subst hst
    have hsize := (hin s (List.mem_filter.mp hs).1 (List.mem_filter.mp hs).2).size
    have hij : i ≡ j [MOD 2 ^ 64] := Nat.ModEq.add_left_cancel' s.lma (hsa.symm.trans hta)
    have hij : i = j := Nat.ModEq.eq_of_lt_of_lt hij (by omega) (by omega)
    rw [hij, hc] at hb
    exact (Option.some.inj hb).symm
  · have hsymm : Std.Symm Apart := ⟨fun s t h i hi j hj heq => h j hj i hi heq.symm⟩
    exact absurd (hsa.symm.trans hta) (hapart.forall hs ht hst i hi j hj)

/-- Where a piece stands in an image that starts at `low`. -/
def Piece.segment (low : ℕ) (p : Piece) : ℕ × List UInt8 := (p.lma - low, p.data)

theorem binaryEnd_eq_ok {low stop : ℕ} {p : Piece} (hlow : low ≤ p.lma) (hlma : p.lma < 2 ^ 64)
    (h : binaryEnd low p = .ok stop) :
    stop = p.lma - low + p.data.length ∧ p.lma - low + p.data.length < 2 ^ 64 := by
  rw [binaryEnd, wrappingSub_of_le hlow hlma] at h
  exact checkedAdd_eq_some (okOrElse_eq_ok.mp h)

theorem binaryCopy_spec {low n : ℕ} (ps : List Piece)
    (hps : ∀ p ∈ ps, low ≤ p.lma ∧ p.lma < 2 ^ 64 ∧ p.lma - low + p.data.length ≤ n) :
    ∀ segs out, ps.foldlM (binaryCopy low) (image segs 0 n) = .ok out →
      out = image ((ps.map (Piece.segment low)).reverse ++ segs) 0 n := by
  induction ps with
  | nil =>
    intro segs out h
    exact (Except.ok.inj h).symm
  | cons p ps ih =>
    intro segs out h
    obtain ⟨hlow, hlma, hend⟩ := hps p List.mem_cons_self
    rw [List.foldlM_cons] at h
    obtain ⟨next, hcopy, h⟩ := bind_eq_ok.mp h
    obtain ⟨stop, hstop, hcopy⟩ := bind_eq_ok.mp hcopy
    rw [(binaryEnd_eq_ok hlow hlma hstop).1, length_image, if_pos hend,
      wrappingSub_of_le hlow hlma, overwrite_image hend] at hcopy
    rw [← Except.ok.inj hcopy] at h
    rw [ih (fun q hq => hps q (List.mem_cons_of_mem _ hq)) _ _ h, List.map_cons,
      List.reverse_cons, List.append_assoc]
    rfl

theorem foldl_max_spec (l : List ℕ) : ∀ m, (∀ x ∈ l, x ≤ l.foldl max m) ∧ m ≤ l.foldl max m ∧
    (l.foldl max m = m ∨ l.foldl max m ∈ l) := by
  induction l with
  | nil => exact fun m => ⟨fun x hx => absurd hx List.not_mem_nil, le_rfl, .inl rfl⟩
  | cons y l ih =>
    intro m
    obtain ⟨hall, hle, hmem⟩ := ih (max m y)
    rw [List.foldl_cons]
    refine ⟨fun x hx => ?_, by omega, ?_⟩
    · rcases List.mem_cons.mp hx with rfl | hx
      · omega
      · exact hall x hx
    · rcases hmem with hmem | hmem
      · rcases Nat.le_total m y with hmy | hmy
        · exact .inr (by rw [hmem, Nat.max_eq_right hmy]; exact List.mem_cons_self)
        · exact .inl (by rw [hmem, Nat.max_eq_left hmy])
      · exact .inr (List.mem_cons_of_mem _ hmem)

/-- An image from the lowest address on: every stored byte, zeros elsewhere, to the end of the last
piece. -/
structure IsFlat (ps : List Piece) (low : ℕ) (out : List UInt8) : Prop where
  lowest : ∀ p ∈ ps, low ≤ p.lma
  first : ps ≠ [] → ∃ p ∈ ps, p.lma = low
  holds : ∀ a ∈ ps.flatMap Piece.stores, ∃ k, (low + k) % 2 ^ 64 = a.1 ∧ out[k]? = some a.2
  zeros : ∀ k b, out[k]? = some b → ((low + k) % 2 ^ 64, b) ∈ ps.flatMap Piece.stores ∨
    (b = 0 ∧ ∀ c, ((low + k) % 2 ^ 64, c) ∉ ps.flatMap Piece.stores)
  last : ps ≠ [] → ∃ p ∈ ps, out.length = p.lma - low + p.data.length

theorem isFlat_image {low n : ℕ} {out : List UInt8}
    (hin : ∀ p ∈ ps, low ≤ p.lma ∧ p.lma < 2 ^ 64 ∧ p.lma - low + p.data.length ≤ n)
    (hfirst : ∃ p ∈ ps, p.lma = low)
    (hfun : ∀ a b c, (a, b) ∈ ps.flatMap Piece.stores → (a, c) ∈ ps.flatMap Piece.stores → b = c)
    (hlast : ∃ p ∈ ps, n = p.lma - low + p.data.length) (hn : n < 2 ^ 64)
    (hout : out = image (ps.map (Piece.segment low)).reverse 0 n) : IsFlat ps low out := by
  -- a byte of a piece in the image, and in memory
  have hstore : ∀ p ∈ ps, ∀ k b, p.lma - low ≤ k → p.data[k - (p.lma - low)]? = some b →
      ((low + k) % 2 ^ 64, b) ∈ ps.flatMap Piece.stores := by
    intro p hp k b hk hb
    refine List.mem_flatMap.mpr ⟨p, hp, mem_stores.mpr ⟨k - (p.lma - low), hb, ?_⟩⟩
    have hle := (hin p hp).1
    omega
  have hread : ∀ k, k < n → ∀ p ∈ ps, p.lma - low ≤ k → k < p.lma - low + p.data.length →
      ∃ b, out[k]? = some b ∧ ((low + k) % 2 ^ 64, b) ∈ ps.flatMap Piece.stores := by
    intro k hk p hp hle hlt
    have hk' : out[k]? = some (byteAt (ps.map (Piece.segment low)).reverse k) := by
      rw [hout, getElem?_image _ _ hk, Nat.zero_add]
    refine ⟨_, hk', ?_⟩
    rcases byteAt_cases (ps.map (Piece.segment low)).reverse k with ⟨a, ha, hak, hb⟩ | ⟨-, hnone⟩
    · obtain ⟨q, hq, rfl⟩ := List.mem_map.mp (List.mem_reverse.mp ha)
      exact hstore q hq k _ hak hb
    · exact absurd ⟨hle, hlt⟩
        (hnone _ (List.mem_reverse.mpr (List.mem_map_of_mem hp)))
  refine ⟨fun p hp => (hin p hp).1, fun _ => hfirst, ?_, ?_, fun _ => ?_⟩
  · rintro ⟨a, b⟩ ha
    obtain ⟨p, hp, hmem⟩ := List.mem_flatMap.mp ha
    obtain ⟨i, hi, haddr⟩ := mem_stores.mp hmem
    obtain ⟨hlow, -, hend⟩ := hin p hp
    have hlt : i < p.data.length := (List.getElem?_eq_some_iff.mp hi).1
    obtain ⟨c, hc, hcmem⟩ := hread (p.lma - low + i) (by omega) p hp (by omega) (by omega)
    have haddr' : (low + (p.lma - low + i)) % 2 ^ 64 = a := by
      rw [← Nat.add_assoc, Nat.add_sub_cancel' hlow]
      exact haddr.symm
    rw [haddr'] at hcmem
    exact ⟨_, haddr', by rw [hc, hfun a c b hcmem ha]⟩
  · intro k b hb
    have hk : k < n := by
      have := (List.getElem?_eq_some_iff.mp hb).1
      rwa [hout, length_image] at this
    rw [hout, getElem?_image _ _ hk, Nat.zero_add, Option.some_inj] at hb
    rcases byteAt_cases (ps.map (Piece.segment low)).reverse k with ⟨a, ha, hak, hab⟩ | ⟨hz, hnone⟩
    · obtain ⟨q, hq, rfl⟩ := List.mem_map.mp (List.mem_reverse.mp ha)
      rw [hb] at hab
      exact .inl (hstore q hq k _ hak hab)
    · refine .inr ⟨hb ▸ hz, fun c hc => ?_⟩
      obtain ⟨q, hq, hmem⟩ := List.mem_flatMap.mp hc
      obtain ⟨i, hi, haddr⟩ := mem_stores.mp hmem
      obtain ⟨hlow, hlma, hend⟩ := hin q hq
      have hlt : i < q.data.length := (List.getElem?_eq_some_iff.mp hi).1
      refine hnone _ (List.mem_reverse.mpr (List.mem_map_of_mem hq)) ?_
      show q.lma - low ≤ k ∧ k < q.lma - low + q.data.length
      have haddr : low + k ≡ low + (q.lma - low + i) [MOD 2 ^ 64] := by
        rw [← Nat.add_assoc, Nat.add_sub_cancel' hlow]
        exact haddr
      have heq := Nat.ModEq.eq_of_lt_of_lt (Nat.ModEq.add_left_cancel' low haddr) (by omega)
        (by omega)
      omega
  · rw [hout, length_image]
    exact hlast

/-- **A flat image holds what the pieces store.** -/
theorem binary_spec {out : List UInt8} (hlma : ∀ p ∈ ps, p.lma < 2 ^ 64)
    (hfun : ∀ a b c, (a, b) ∈ ps.flatMap Piece.stores → (a, c) ∈ ps.flatMap Piece.stores → b = c)
    (h : binary ps = .ok out) : ∃ low, IsFlat ps low out := by
  rw [binary] at h
  split at h
  · next hnone =>
    rw [List.min?_eq_none_iff, List.map_eq_nil_iff] at hnone
    obtain rfl : [] = out := Except.ok.inj h
    subst hnone
    exact ⟨0, fun p hp => absurd hp List.not_mem_nil, fun h => absurd rfl h,
      fun a ha => absurd ha List.not_mem_nil, fun k b hk => by simp at hk, fun h => absurd rfl h⟩
  · next low hlow =>
    obtain ⟨hmem, hleast⟩ := List.min?_eq_some_iff.mp hlow
    obtain ⟨first, hfirst, hfirstLma⟩ := List.mem_map.mp hmem
    have hle : ∀ p ∈ ps, low ≤ p.lma := fun p hp => hleast _ (List.mem_map_of_mem hp)
    obtain ⟨stops, hstops, h⟩ := bind_eq_ok.mp h
    have hmap : stops = ps.map fun p => p.lma - low + p.data.length :=
      eq_map_of_mapM_eq_ok hstops fun p hp stop hstop =>
        (binaryEnd_eq_ok (hle p hp) (hlma p hp) hstop).1
    obtain ⟨hbound, -, hmax⟩ := foldl_max_spec stops 0
    generalize stops.foldl max 0 = n at h hbound hmax
    have hin : ∀ p ∈ ps, low ≤ p.lma ∧ p.lma < 2 ^ 64 ∧ p.lma - low + p.data.length ≤ n := by
      intro p hp
      refine ⟨hle p hp, hlma p hp, hbound _ ?_⟩
      rw [hmap]
      exact List.mem_map_of_mem hp
    have hzero : List.replicate n 0 = image ([] : List (ℕ × List UInt8)) 0 n :=
      (image_eq_replicate fun a ha => absurd ha List.not_mem_nil).symm
    rw [hzero] at h
    have hout := binaryCopy_spec ps hin [] out h
    rw [List.append_nil] at hout
    have hlast : ∃ p ∈ ps, n = p.lma - low + p.data.length := by
      rcases hmax with hmax | hmax
      · exact ⟨first, hfirst, Nat.le_antisymm (by omega) (hin first hfirst).2.2⟩
      · rw [hmap] at hmax
        obtain ⟨p, hp, hpn⟩ := List.mem_map.mp hmax
        exact ⟨p, hp, hpn.symm⟩
    have hn : n < 2 ^ 64 := by
      obtain ⟨p, hp, rfl⟩ := hlast
      obtain ⟨stop, -, hstop⟩ := exists_right_of_forall₂ (mapM_eq_ok.mp hstops) p hp
      exact (binaryEnd_eq_ok (hle p hp) (hlma p hp) hstop).2
    exact ⟨low, isFlat_image hin ⟨first, hfirst, hfirstLma⟩ hfun hlast hn hout⟩

/-- **A flat image is made when it is smaller than the address space.** -/
theorem binary_ok (hlma : ∀ p ∈ ps, p.lma < 2 ^ 64)
    (hspan : ∀ p ∈ ps, ∀ q ∈ ps, q.lma ≤ p.lma → p.lma - q.lma + p.data.length < 2 ^ 64) :
    ∃ out, binary ps = .ok out := by
  rw [binary]
  split
  · exact ⟨[], rfl⟩
  · next low hlow =>
    obtain ⟨hmem, hleast⟩ := List.min?_eq_some_iff.mp hlow
    obtain ⟨first, hfirst, rfl⟩ := List.mem_map.mp hmem
    have hend : ∀ p ∈ ps, ∃ stop, binaryEnd first.lma p = .ok stop := by
      intro p hp
      have hle : first.lma ≤ p.lma := hleast _ (List.mem_map_of_mem hp)
      have hadd : checkedAdd (p.lma - first.lma) p.data.length =
          some (p.lma - first.lma + p.data.length) := if_pos (hspan p hp first hfirst hle)
      rw [binaryEnd, wrappingSub_of_le hle (hlma p hp), hadd]
      exact ⟨_, rfl⟩
    have hcopy : ∀ l : List Piece, (∀ p ∈ l, p ∈ ps) → ∀ image : List UInt8,
        ∃ out, l.foldlM (binaryCopy first.lma) image = .ok out := by
      intro l
      induction l with
      | nil => exact fun _ image => ⟨image, rfl⟩
      | cons p l ih =>
        intro hl image
        obtain ⟨stop, hstop⟩ := hend p (hl p List.mem_cons_self)
        have hone : ∃ next, binaryCopy first.lma image p = .ok next := by
          by_cases hfits : stop ≤ image.length
          · exact ⟨_, bind_eq_ok.mpr ⟨stop, hstop, if_pos hfits⟩⟩
          · exact ⟨_, bind_eq_ok.mpr ⟨stop, hstop, if_neg hfits⟩⟩
        obtain ⟨next, hnext⟩ := hone
        obtain ⟨out, hout⟩ := ih (fun q hq => hl q (List.mem_cons_of_mem _ hq)) next
        exact ⟨out, by rw [List.foldlM_cons]; exact bind_eq_ok.mpr ⟨next, hnext, hout⟩⟩
    obtain ⟨stops, hstops⟩ := exists_mapM_eq_ok hend
    obtain ⟨out, hout⟩ := hcopy ps (fun _ h => h) (List.replicate (stops.foldl max 0) 0)
    exact ⟨out, bind_eq_ok.mpr ⟨stops, hstops, hout⟩⟩

end Qld.Elf
