import Qld.Passes.Merge.Layout

/-!
# The layout of a group

* `alignTo_spec` — the mask arithmetic gives the next multiple of a power of two;
* `Placed` — items at aligned offsets, in order, without overlap, inside a size;
  `placeAll_placed` and `shifted_placed` establish it for the sequential pass and for runs
  that are laid out apart and then shifted;
* `Linked` — every link goes to an owner, of which the linked string is a suffix, at an aligned
  distance; `links_linked` — **proved** for the tail merging loop over any order;
* `Laid` — what a group's layout promises; `layoutRuns_laid` and `layoutLinked_laid` —
  **proved** for both layouts.
-/

namespace Qld.Passes.Merge

open Qld.Lib

/-! ### Alignment -/

theorem land_not_mask {k w : ℕ} (hw : w < 2 ^ 64) :
    (w &&& (2 ^ 64 - 1 - (2 ^ k - 1))) = if k ≤ 64 then w / 2 ^ k * 2 ^ k else 0 := by
  split
  · next hk =>
    have hle : 2 ^ k ≤ 2 ^ 64 := Nat.pow_le_pow_right (by omega) hk
    have hpos : 0 < 2 ^ k := Nat.pow_pos (by omega)
    have hsub : 2 ^ 64 - 1 - (2 ^ k - 1) = 2 ^ 64 - ((2 ^ k - 1) + 1) := by omega
    apply Nat.eq_of_testBit_eq
    intro i
    rw [Nat.testBit_and, hsub, Nat.testBit_two_pow_sub_succ (by omega), Nat.testBit_two_pow_sub_one,
      Nat.testBit_mul_two_pow, Nat.testBit_div_two_pow]
    by_cases hi : i < 64
    · by_cases hik : i < k
      · simp [hik, show ¬ k ≤ i by omega]
      · simp [hi, hik, show k ≤ i by omega]
    · have hbit : w.testBit i = false :=
        Nat.testBit_lt_two_pow (Nat.lt_of_lt_of_le hw (Nat.pow_le_pow_right (by omega) (by omega)))
      by_cases hik : k ≤ i
      · simp [hbit, show i - k + k = i by omega]
      · simp [hbit, hik]
  · next hk =>
    have hle : 2 ^ 64 ≤ 2 ^ k := Nat.pow_le_pow_right (by omega) (by omega)
    rw [show 2 ^ 64 - 1 - (2 ^ k - 1) = 0 by omega, Nat.and_zero]

variable {alignment : ℕ}

/-- **The next multiple of a power of two.** -/
theorem alignTo_spec {value v : ℕ} (ha : alignment.isPowerOfTwo)
    (h : alignTo value alignment = some v) : alignment ∣ v ∧ value ≤ v ∧ v < 2 ^ 64 := by
  obtain ⟨k, rfl⟩ := ha
  have hpos : 0 < 2 ^ k := Nat.pow_pos (by omega)
  simp only [alignTo, checkedAdd] at h
  split at h
  · next hlt =>
    rw [Option.map_some, Option.some.injEq, land_not_mask hlt] at h
    have hmod := Nat.mod_lt (value + (2 ^ k - 1)) hpos
    have hdiv := Nat.div_add_mod (value + (2 ^ k - 1)) (2 ^ k)
    rw [Nat.mul_comm] at hdiv
    split at h
    · subst h
      exact ⟨Nat.dvd_mul_left _ _, by omega, by omega⟩
    · next hk =>
      have hle : 2 ^ 65 ≤ 2 ^ k := Nat.pow_le_pow_right (by omega) (by omega)
      omega
  · exact absurd h (by simp)

/-! ### Items in order -/

/-- Items at multiples of the alignment, in order, without overlap, between `low` and `size`. -/
structure Placed {α : Type} (alignment : ℕ) (len : α → ℕ) (low size : ℕ)
    (placed : List (α × ℕ)) : Prop where
  aligned : ∀ x ∈ placed, alignment ∣ x.2
  above : ∀ x ∈ placed, low ≤ x.2
  inside : ∀ x ∈ placed, x.2 + len x.1 ≤ size
  ordered : placed.Pairwise fun x y => x.2 + len x.1 ≤ y.2

variable {α : Type}

/-- **The sequential pass.** -/
theorem placeAll_placed (ha : alignment.isPowerOfTwo) (len : α → ℕ) (l : List α) :
    ∀ (size : ℕ) (placed : List (α × ℕ)) (size' : ℕ),
      placeAll alignment len l size = some (placed, size') →
      placed.map Prod.fst = l ∧ size ≤ size' ∧ (size < 2 ^ 64 → size' < 2 ^ 64) ∧
        Placed alignment len size size' placed := by
  induction l with
  | nil =>
    intro size placed size' h
    simp only [placeAll, Option.some.injEq, Prod.mk.injEq] at h
    obtain ⟨rfl, rfl⟩ := h
    refine ⟨rfl, le_rfl, id, ?_⟩
    constructor <;> simp
  | cons x l ih =>
    intro size placed size' h
    simp only [placeAll, bind, Option.bind_eq_some_iff] at h
    obtain ⟨start, hstart, next, hnext, ⟨rest, size''⟩, hrest, heq⟩ := h
    simp only [Option.some.injEq, Prod.mk.injEq] at heq
    obtain ⟨rfl, rfl⟩ := heq
    obtain ⟨hdvd, hle, _⟩ := alignTo_spec ha hstart
    simp only [checkedAdd] at hnext
    split at hnext
    · next hlt =>
      rw [Option.some.injEq] at hnext
      subst hnext
      obtain ⟨hfst, hmono, hbound, hplaced⟩ := ih _ _ _ hrest
      refine ⟨by rw [List.map_cons, hfst], by omega, fun _ => hbound hlt, ?_⟩
      constructor
      · intro y hy
        rcases List.mem_cons.mp hy with rfl | hy
        · exact hdvd
        · exact hplaced.aligned y hy
      · intro y hy
        rcases List.mem_cons.mp hy with rfl | hy
        · exact hle
        · have := hplaced.above y hy
          omega
      · intro y hy
        rcases List.mem_cons.mp hy with rfl | hy
        · exact hmono
        · exact hplaced.inside y hy
      · exact List.pairwise_cons.mpr ⟨fun y hy => hplaced.above y hy, hplaced.ordered⟩
    · exact absurd hnext (by simp)

/-- The items of runs, each shifted by its base. -/
def shifted (layouts : List RunLayout) (bases : List ℕ) : List (Leader × ℕ) :=
  (layouts.zip bases).flatMap fun (run, base) =>
    run.1.map fun (lead, offset) => (lead, offset + base)

/-- **Runs laid out apart and then shifted.** -/
theorem shifted_placed (ha : alignment.isPowerOfTwo) (layouts : List RunLayout) :
    ∀ (next size : ℕ) (bases : List ℕ) (size' : ℕ), alignment ∣ next → size ≤ next →
      (∀ run ∈ layouts, Placed alignment Leader.len 0 run.2 run.1) →
      runBases alignment layouts next size = some (bases, size') →
      (shifted layouts bases).map Prod.fst = layouts.flatMap (fun run => run.1.map Prod.fst) ∧
        size ≤ size' ∧ (size < 2 ^ 64 → size' < 2 ^ 64) ∧
        Placed alignment Leader.len next size' (shifted layouts bases) := by
  induction layouts with
  | nil =>
    intro next size bases size' _ _ _ h
    simp only [runBases, Option.some.injEq, Prod.mk.injEq] at h
    obtain ⟨rfl, rfl⟩ := h
    refine ⟨rfl, le_rfl, id, ?_⟩
    constructor <;> simp [shifted]
  | cons run layouts ih =>
    intro next size bases size' hdvd hle hruns h
    have hruns' : ∀ run ∈ layouts, Placed alignment Leader.len 0 run.2 run.1 :=
      fun r hr => hruns r (List.mem_cons_of_mem _ hr)
    rw [runBases] at h
    split at h
    · next hempty =>
      have hnil : run.1 = [] := List.isEmpty_iff.mp hempty
      simp only [bind, Option.bind_eq_some_iff] at h
      obtain ⟨⟨rest, size''⟩, hrest, heq⟩ := h
      simp only [Option.some.injEq, Prod.mk.injEq] at heq
      obtain ⟨rfl, rfl⟩ := heq
      have hshift : shifted (run :: layouts) (next :: rest) = shifted layouts rest := by
        simp [shifted, hnil]
      rw [hshift, List.flatMap_cons, hnil, List.map_nil, List.nil_append]
      exact ih next size rest size'' hdvd hle hruns' hrest
    · simp only [bind, Option.bind_eq_some_iff] at h
      obtain ⟨mid, hmid, next', hnext', ⟨rest, size''⟩, hrest, heq⟩ := h
      simp only [Option.some.injEq, Prod.mk.injEq] at heq
      obtain ⟨rfl, rfl⟩ := heq
      simp only [checkedAdd] at hmid
      split at hmid
      · next hlt =>
        rw [Option.some.injEq] at hmid
        subst hmid
        obtain ⟨hdvd', hle', _⟩ := alignTo_spec ha hnext'
        obtain ⟨hfst, hmono, hbound, hplaced⟩ :=
          ih next' _ rest size'' hdvd' hle' hruns' hrest
        have hrun := hruns run List.mem_cons_self
        have hshift : shifted (run :: layouts) (next :: rest) =
            run.1.map (fun x => (x.1, x.2 + next)) ++ shifted layouts rest := by
          simp [shifted]
        rw [hshift, List.flatMap_cons, List.map_append, hfst, List.map_map]
        refine ⟨rfl, by omega, fun _ => hbound hlt, ?_⟩
        constructor
        · intro x hx
          rcases List.mem_append.mp hx with hx | hx
          · obtain ⟨y, hy, rfl⟩ := List.mem_map.mp hx
            exact Nat.dvd_add (hrun.aligned y hy) hdvd
          · exact hplaced.aligned x hx
        · intro x hx
          rcases List.mem_append.mp hx with hx | hx
          · obtain ⟨y, _, rfl⟩ := List.mem_map.mp hx
            exact Nat.le_add_left _ _
          · have := hplaced.above x hx
            omega
        · intro x hx
          rcases List.mem_append.mp hx with hx | hx
          · obtain ⟨y, hy, rfl⟩ := List.mem_map.mp hx
            have := hrun.inside y hy
            show y.2 + next + y.1.len ≤ _
            omega
          · exact hplaced.inside x hx
        · refine List.pairwise_append.mpr ⟨?_, hplaced.ordered, ?_⟩
          · refine List.pairwise_map.mpr (hrun.ordered.imp ?_)
            intro x y hxy
            show x.2 + next + x.1.len ≤ y.2 + next
            omega
          · intro x hx y hy
            obtain ⟨z, hz, rfl⟩ := List.mem_map.mp hx
            have hin := hrun.inside z hz
            have habove := hplaced.above y hy
            show z.2 + next + z.1.len ≤ y.2
            omega
      · exact absurd hmid (by simp)

/-! ### Stores -/

/-- Cells after writing pairs of an index and a value at distinct indices. -/
theorem foldl_set_spec {α : Type*} (l : List (ℕ × α)) :
    ∀ a : Cells α, (l.map Prod.fst).Nodup →
      (∀ x ∈ l, (l.foldl (fun a x => a.set x.1 x.2) a).get x.1 = x.2) ∧
      ∀ i, i ∉ l.map Prod.fst → (l.foldl (fun a x => a.set x.1 x.2) a).get i = a.get i := by
  induction l with
  | nil => intro a _; exact ⟨fun x hx => absurd hx List.not_mem_nil, fun _ _ => rfl⟩
  | cons x l ih =>
    intro a hnodup
    rw [List.map_cons, List.nodup_cons] at hnodup
    obtain ⟨hin, hout⟩ := ih (a.set x.1 x.2) hnodup.2
    rw [List.foldl_cons]
    refine ⟨fun y hy => ?_, fun i hi => ?_⟩
    · rcases List.mem_cons.mp hy with rfl | hy
      · rw [hout _ hnodup.1, Cells.get_set_self]
      · exact hin y hy
    · rw [List.map_cons, List.mem_cons, not_or] at hi
      rw [hout i hi.2, Cells.get_set_of_ne _ hi.1]

theorem storeOffsets_spec (placed : List (Leader × ℕ)) (out : Cells ℕ)
    (hnodup : (placed.map fun x => x.1.piece).Nodup) :
    (∀ x ∈ placed, (storeOffsets placed out).get x.1.piece = x.2) ∧
      ∀ i, i ∉ placed.map (fun x => x.1.piece) → (storeOffsets placed out).get i = out.get i := by
  have hmap : storeOffsets placed out =
      (placed.map fun x => (x.1.piece, x.2)).foldl (fun a x => a.set x.1 x.2) out := by
    rw [storeOffsets, List.foldl_map]
  have hfst : (placed.map fun x => (x.1.piece, x.2)).map Prod.fst =
      placed.map fun x => x.1.piece := by
    rw [List.map_map]
    rfl
  obtain ⟨hin, hout⟩ := foldl_set_spec (placed.map fun x => (x.1.piece, x.2)) out
    (by rw [hfst]; exact hnodup)
  rw [← hmap] at hin hout
  rw [hfst] at hout
  exact ⟨fun x hx => hin (x.1.piece, x.2) (List.mem_map_of_mem hx), hout⟩

/-! ### Tail merging -/

section TailMerge

variable {leaders : List Leader} {alignment : ℕ}

/-- The string at `position` is the end of the owner's, from `delta` on, at an aligned
distance. -/
structure SharesTail (leaders : List Leader) (alignment position owner delta : ℕ) : Prop where
  lt : owner < leaders.length
  length : delta + (bytesAt leaders position).length = (bytesAt leaders owner).length
  bytes : bytesAt leaders position = (bytesAt leaders owner).drop delta
  aligned : alignment ∣ delta

/-- Every link goes to an owner whose tail is the linked string. -/
def Linked (leaders : List Leader) (alignment : ℕ) (link : Cells (Option (ℕ × ℕ))) : Prop :=
  ∀ position owner delta, link.get position = some (owner, delta) →
    link.get owner = none ∧ SharesTail leaders alignment position owner delta

theorem sharesTail_of_suffix (ha : alignment.isPowerOfTwo) {position owner : ℕ}
    (howner : owner < leaders.length)
    (hsuffix : (bytesAt leaders position).isSuffixOf (bytesAt leaders owner) = true)
    (hmask : ((bytesAt leaders owner).length - (bytesAt leaders position).length) &&&
      (alignment - 1) = 0) :
    SharesTail leaders alignment position owner
      ((bytesAt leaders owner).length - (bytesAt leaders position).length) := by
  obtain ⟨k, rfl⟩ := ha
  obtain ⟨front, hfront⟩ := List.isSuffixOf_iff_suffix.mp hsuffix
  have hlen : (bytesAt leaders owner).length =
      front.length + (bytesAt leaders position).length := by
    rw [← hfront, List.length_append]
  refine ⟨howner, by omega, ?_, ?_⟩
  · rw [hlen, Nat.add_sub_cancel, ← hfront, List.drop_left]
  · rw [Nat.and_two_pow_sub_one_eq_mod] at hmask
    exact Nat.dvd_of_mod_eq_zero hmask

/-- What the tail merging loop keeps, when the positions `rest` are still to come: these are
not linked and nothing links to them, and the last owner is none of them. -/
structure Linking (leaders : List Leader) (alignment : ℕ) (rest : List ℕ)
    (s : Option ℕ × Cells (Option (ℕ × ℕ))) : Prop where
  linked : Linked leaders alignment s.2
  fresh : ∀ position ∈ rest, s.2.get position = none
  target : ∀ position owner delta, s.2.get position = some (owner, delta) → owner ∉ rest
  owner : ∀ o, s.1 = some o → o < leaders.length ∧ s.2.get o = none ∧ o ∉ rest

theorem linkPosition_linking (ha : alignment.isPowerOfTwo) {position : ℕ} {rest : List ℕ}
    {s : Option ℕ × Cells (Option (ℕ × ℕ))} (hlt : position < leaders.length)
    (hnot : position ∉ rest) (h : Linking leaders alignment (position :: rest) s) :
    Linking leaders alignment rest (linkPosition leaders alignment s position) := by
  -- The state when `position` becomes the owner.
  have howner : Linking leaders alignment rest (some position, s.2) := by
    refine ⟨h.linked, fun p hp => h.fresh p (List.mem_cons_of_mem _ hp), ?_, ?_⟩
    · intro p o d hpo
      exact fun ho => h.target p o d hpo (List.mem_cons_of_mem _ ho)
    · intro o ho
      rw [Option.some.injEq] at ho
      subst ho
      exact ⟨hlt, h.fresh position List.mem_cons_self, hnot⟩
  unfold linkPosition
  cases hs : s.1 with
  | none => exact howner
  | some o =>
    simp only
    split
    · next hcond =>
      rw [Bool.and_eq_true, beq_iff_eq] at hcond
      obtain ⟨holt, hnone, horest⟩ := h.owner o hs
      rw [List.mem_cons, not_or] at horest
      have hshare := sharesTail_of_suffix ha holt hcond.1 hcond.2
      refine ⟨?_, ?_, ?_, ?_⟩
      · intro p q d hpq
        rw [Cells.get_set] at hpq
        split at hpq
        · next hp =>
          simp only [Option.some.injEq, Prod.mk.injEq] at hpq
          obtain ⟨rfl, rfl⟩ := hpq
          subst hp
          exact ⟨by rw [Cells.get_set_of_ne _ horest.1, hnone], hshare⟩
        · have hq := h.target p q d hpq
          rw [List.mem_cons, not_or] at hq
          rw [Cells.get_set_of_ne _ hq.1]
          exact h.linked p q d hpq
      · intro p hp
        have hne : p ≠ position := fun hpp => hnot (hpp ▸ hp)
        rw [Cells.get_set_of_ne _ hne]
        exact h.fresh p (List.mem_cons_of_mem _ hp)
      · intro p q d hpq hq
        rw [Cells.get_set] at hpq
        split at hpq
        · simp only [Option.some.injEq, Prod.mk.injEq] at hpq
          exact horest.2 (hpq.1 ▸ hq)
        · exact h.target p q d hpq (List.mem_cons_of_mem _ hq)
      · intro q hq
        rw [Option.some.injEq] at hq
        subst hq
        exact ⟨holt, by rw [Cells.get_set_of_ne _ horest.1, hnone], horest.2⟩
    · exact howner

theorem foldl_linkPosition (ha : alignment.isPowerOfTwo) (order : List ℕ) :
    ∀ s, order.Nodup → (∀ position ∈ order, position < leaders.length) →
      Linking leaders alignment order s →
      Linked leaders alignment (order.foldl (linkPosition leaders alignment) s).2 := by
  induction order with
  | nil => intro s _ _ h; exact h.linked
  | cons position order ih =>
    intro s hnodup hlt h
    obtain ⟨hnot, hnodup⟩ := List.nodup_cons.mp hnodup
    rw [List.foldl_cons]
    exact ih _ hnodup (fun p hp => hlt p (List.mem_cons_of_mem _ hp))
      (linkPosition_linking ha (hlt position List.mem_cons_self) hnot h)

/-- **Every link goes to an owner.** -/
theorem links_linked (ha : alignment.isPowerOfTwo) :
    Linked leaders alignment (links leaders alignment) := by
  have hperm := List.perm_insertionSort (tailOrder leaders) (List.range leaders.length)
  refine foldl_linkPosition ha _ _ (hperm.nodup_iff.mpr List.nodup_range) ?_ ?_
  · intro position hp
    exact List.mem_range.mp (hperm.mem_iff.mp hp)
  · refine ⟨?_, fun _ _ => rfl, ?_, ?_⟩
    · intro p o d hpo
      exact absurd hpo (by simp)
    · intro p o d hpo
      exact absurd hpo (by simp)
    · intro o ho
      exact absurd ho (by simp)

end TailMerge

/-! ### What a layout promises -/

/-- The layout of a group: its storage-owning pieces are those of some leaders, in order and
without overlap, and every leader lies in one of them. -/
structure Laid (alignment : ℕ) (leaders : List Leader) (merged : MergedGroup)
    (out : Cells ℕ) : Prop where
  size_lt : merged.size < 2 ^ 64
  pieces : ∀ piece ∈ merged.pieces, ∃ lead ∈ leaders, piece = outputPiece lead piece.outputOffset
  inside : ∀ piece ∈ merged.pieces, piece.outputOffset + piece.len ≤ merged.size
  ordered : merged.pieces.Pairwise fun p q => p.outputOffset + p.len ≤ q.outputOffset
  located : ∀ lead ∈ leaders, ∃ owner ∈ leaders, ∃ start delta,
    outputPiece owner start ∈ merged.pieces ∧ out.get lead.piece = start + delta ∧
    alignment ∣ start + delta ∧ delta + lead.bytes.length = owner.bytes.length ∧
    lead.bytes = owner.bytes.drop delta

theorem mapM_forall₂ {β : Type} {f : α → Option β} (l : List α) :
    ∀ m, l.mapM f = some m → List.Forall₂ (fun x y => f x = some y) l m := by
  induction l with
  | nil =>
    intro m h
    rw [List.mapM_nil] at h
    simp only [pure, Option.some.injEq] at h
    subst h
    exact List.Forall₂.nil
  | cons x l ih =>
    intro m h
    rw [List.mapM_cons] at h
    simp only [bind, Option.bind_eq_some_iff, pure, Option.some.injEq] at h
    obtain ⟨y, hy, ys, hys, rfl⟩ := h
    exact List.Forall₂.cons hy (ih ys hys)

variable {group : MergeGroup} {out out' : Cells ℕ} {merged : MergedGroup}

/-- **The layout without tail merging**, for every cut into runs. -/
theorem layoutRuns_laid (ha : group.alignment.isPowerOfTwo) {runs : List (List Leader)}
    (hnodup : (runs.flatten.map Leader.piece).Nodup)
    (h : layoutRuns group runs out = .ok (merged, out')) :
    Laid group.alignment runs.flatten merged out' ∧
      ∀ i, i ∉ runs.flatten.map Leader.piece → out'.get i = out.get i := by
  unfold layoutRuns at h
  split at h
  · exact absurd h (by simp)
  next layouts hlayouts =>
  split at h
  · exact absurd h (by simp)
  next bases size hbases =>
  rw [Except.ok.injEq, Prod.mk.injEq] at h
  obtain ⟨rfl, rfl⟩ := h
  have hall := mapM_forall₂ runs layouts hlayouts
  have hplaced : ∀ run ∈ layouts, Placed group.alignment Leader.len 0 run.2 run.1 := by
    intro run hrun
    clear hnodup hlayouts hbases
    induction hall with
    | nil => exact absurd hrun List.not_mem_nil
    | cons hx _ ih =>
      rcases List.mem_cons.mp hrun with rfl | hrun
      · exact (placeAll_placed ha Leader.len _ 0 _ _ hx).2.2.2
      · exact ih hrun
  have hfsts : layouts.flatMap (fun run => run.1.map Prod.fst) = runs.flatten := by
    clear hnodup hlayouts hbases hplaced
    induction hall with
    | nil => rfl
    | cons hx _ ih =>
      rw [List.flatMap_cons, ih, (placeAll_placed ha Leader.len _ 0 _ _ hx).1, List.flatten_cons]
  obtain ⟨hfst, _, hbound, hp⟩ :=
    shifted_placed ha layouts 0 0 bases size (Nat.dvd_zero _) le_rfl hplaced hbases
  rw [hfsts] at hfst
  have hpieces : (shifted layouts bases).map (fun x => x.1.piece) =
      runs.flatten.map Leader.piece := by
    rw [← hfst, List.map_map]
    rfl
  obtain ⟨hin, hout⟩ := storeOffsets_spec (shifted layouts bases) out
    (by rw [hpieces]; exact hnodup)
  rw [hpieces] at hout
  refine ⟨⟨hbound (by omega), ?_, ?_, ?_, ?_⟩, hout⟩
  · intro piece hpiece
    obtain ⟨x, hx, rfl⟩ := List.mem_map.mp hpiece
    exact ⟨x.1, hfst ▸ List.mem_map_of_mem hx, rfl⟩
  · intro piece hpiece
    obtain ⟨x, hx, rfl⟩ := List.mem_map.mp hpiece
    exact hp.inside x hx
  · exact List.pairwise_map.mpr hp.ordered
  · intro lead hlead
    rw [← hfst] at hlead
    obtain ⟨x, hx, rfl⟩ := List.mem_map.mp hlead
    refine ⟨x.1, hfst ▸ List.mem_map_of_mem hx, x.2, 0, List.mem_map_of_mem hx, hin x hx,
      hp.aligned x hx, Nat.zero_add _, rfl⟩

variable {leaders : List Leader}

theorem bytesAt_of_getElem? {position : ℕ} {lead : Leader} (h : leaders[position]? = some lead) :
    bytesAt leaders position = lead.bytes := by
  rw [bytesAt, h]
  rfl

/-- **The layout with tail merging**, for every choice of links to owners. -/
theorem layoutLinked_laid (ha : group.alignment.isPowerOfTwo) {link : Cells (Option (ℕ × ℕ))}
    (hlink : Linked leaders group.alignment link) (hnodup : (leaders.map Leader.piece).Nodup)
    (h : layoutLinked leaders group link out = .ok (merged, out')) :
    Laid group.alignment leaders merged out' ∧
      ∀ i, i ∉ leaders.map Leader.piece → out'.get i = out.get i := by
  unfold layoutLinked at h
  simp only at h
  split at h
  · exact absurd h (by simp)
  next placed size hplaced =>
  rw [Except.ok.injEq, Prod.mk.injEq] at h
  obtain ⟨rfl, rfl⟩ := h
  obtain ⟨hfst, _, hbound, hp⟩ := placeAll_placed ha _ _ 0 placed size hplaced
  have hstart : ∀ x ∈ placed, (placed.foldl (fun offsets x => offsets.set x.1 x.2)
      (Cells.const 0)).get x.1 = x.2 :=
    (foldl_set_spec placed (Cells.const 0)
      (by rw [hfst]; exact List.nodup_range.filter _)).1
  have howner : ∀ x ∈ placed, x.1 < leaders.length := by
    intro x hx
    have hmem : x.1 ∈ placed.map Prod.fst := List.mem_map_of_mem hx
    rw [hfst] at hmem
    exact List.mem_range.mp (List.mem_filter.mp hmem).1
  -- A position without a link is placed.
  have hfind : ∀ position < leaders.length, link.get position = none →
      ∃ start, (position, start) ∈ placed := by
    intro position hlt hnone
    have hmem : position ∈ placed.map Prod.fst := by
      rw [hfst]
      exact List.mem_filter.mpr ⟨List.mem_range.mpr hlt, by rw [hnone]; rfl⟩
    obtain ⟨x, hx, rfl⟩ := List.mem_map.mp hmem
    exact ⟨x.2, hx⟩
  have hlen : ∀ {position : ℕ} {lead : Leader}, leaders[position]? = some lead →
      lead.len = (bytesAt leaders position).length := by
    intro position lead hlead
    rw [bytesAt_of_getElem? hlead, Leader.len]
  have hpieces : ∀ f : ℕ → ℕ, ((leaders.zipIdx.map fun x => (x.1, f x.2)).map
      fun x => x.1.piece) = leaders.map Leader.piece := by
    intro f
    rw [List.map_map, ← List.zipIdx_map_fst 0 leaders, List.map_map]
    simp [Function.comp_def]
  obtain ⟨hin, hout⟩ := storeOffsets_spec (leaders.zipIdx.map fun x => (x.1,
    offsetAt link (placed.foldl (fun offsets x => offsets.set x.1 x.2) (Cells.const 0)) x.2)) out
    (by rw [hpieces]; exact hnodup)
  rw [hpieces] at hout
  refine ⟨⟨hbound (by omega), ?_, ?_, ?_, ?_⟩, hout⟩
  · intro piece hpiece
    obtain ⟨x, hx, hmap⟩ := List.mem_filterMap.mp hpiece
    obtain ⟨lead, hlead, rfl⟩ := Option.map_eq_some_iff.mp hmap
    exact ⟨lead, List.mem_of_getElem? hlead, rfl⟩
  · intro piece hpiece
    obtain ⟨x, hx, hmap⟩ := List.mem_filterMap.mp hpiece
    obtain ⟨lead, hlead, rfl⟩ := Option.map_eq_some_iff.mp hmap
    have := hp.inside x hx
    show x.2 + lead.len ≤ size
    rw [hlen hlead]
    exact this
  · refine hp.ordered.filterMap _ ?_
    intro x y hxy p hpx q hqy
    obtain ⟨lead, hlead, rfl⟩ := Option.map_eq_some_iff.mp hpx
    obtain ⟨lead', _, rfl⟩ := Option.map_eq_some_iff.mp hqy
    show x.2 + lead.len ≤ y.2
    rw [hlen hlead]
    exact hxy
  · intro lead hlead
    obtain ⟨position, hposition⟩ := List.mem_iff_getElem?.mp hlead
    have hlt : position < leaders.length := (List.getElem?_eq_some_iff.mp hposition).1
    have hmem : (lead, position) ∈ leaders.zipIdx :=
      List.mem_zipIdx_iff_getElem?.mpr hposition
    have hoff := hin _ (List.mem_map_of_mem hmem)
    cases hlk : link.get position with
    | none =>
      obtain ⟨start, hmemp⟩ := hfind position hlt hlk
      refine ⟨lead, hlead, start, 0, ?_, ?_, hp.aligned _ hmemp, Nat.zero_add _, rfl⟩
      · refine List.mem_filterMap.mpr ⟨(position, start), hmemp, ?_⟩
        rw [hposition]
        rfl
      · rw [hoff, offsetAt, hlk]
        exact hstart _ hmemp
    | some od =>
      obtain ⟨owner, delta⟩ := od
      obtain ⟨hnone, hshare⟩ := hlink position owner delta hlk
      obtain ⟨start, hmemp⟩ := hfind owner hshare.lt hnone
      have hget : leaders[owner]? = some (leaders.get ⟨owner, hshare.lt⟩) :=
        List.getElem?_eq_getElem hshare.lt
      have hbytes := bytesAt_of_getElem? hposition
      have hownerBytes := bytesAt_of_getElem? hget
      refine ⟨leaders.get ⟨owner, hshare.lt⟩, List.get_mem _ _, start, delta, ?_, ?_,
        Nat.dvd_add (hp.aligned _ hmemp) hshare.aligned, ?_, ?_⟩
      · refine List.mem_filterMap.mpr ⟨(owner, start), hmemp, ?_⟩
        rw [hget]
        rfl
      · rw [hoff, offsetAt, hlk]
        simp only
        rw [hstart _ hmemp]
      · rw [← hbytes, ← hownerBytes]
        exact hshare.length
      · rw [← hbytes, ← hownerBytes]
        exact hshare.bytes

end Qld.Passes.Merge
