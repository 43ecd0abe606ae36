import Mathlib.Algebra.GroupWithZero.Nat
import Mathlib.Order.CompletePartialOrder
import Qld.Passes.IcfInvariant

/-!
# Folding computes the coarsest partition

The correctness of `fold_identical`:

* `roundZero_inv`, `round_inv` — round 0 establishes the invariant and every later round
  preserves it;
* `refine_spec` — the loop ends, because a round that is not the last one splits a class, and
  at the end no class can be split;
* `foldIdentical_coarsest` — the classes at the end are the coarsest admissible
  partition, whatever the hash functions are.
-/

namespace Qld.Passes.Icf

open Qld.Lib Std

variable {input : IcfInput} {mode : IcfMode}

/-! ### Splitting every class -/

section Rounds

variable {cmp : ℕ → ℕ → Ordering}

variable {L : List (List Slot)}

/-- Two members that compare equal stay in one part. -/
theorem IsSplit.same_part [TransCmp cmp] {run : List Slot} (h : IsSplit cmp run L) {i j : ℕ}
    (hi : i ∈ ids run) (hj : j ∈ ids run) (heq : cmp i j = .eq) :
    ∃ d ∈ L, i ∈ ids d ∧ j ∈ ids d := by
  obtain ⟨x, hx, rfl⟩ := List.mem_map.mp (h.perm.mem_iff.mpr hi)
  obtain ⟨y, hy, rfl⟩ := List.mem_map.mp (h.perm.mem_iff.mpr hj)
  obtain ⟨c, hc, hxc⟩ := List.mem_flatten.mp hx
  obtain ⟨d, hd, hyd⟩ := List.mem_flatten.mp hy
  refine ⟨c, hc, List.mem_map_of_mem hxc, ?_⟩
  by_cases hcd : c = d
  · rw [hcd]
    exact List.mem_map_of_mem hyd
  · have hsymm : Std.Symm fun c d : List Slot => ∀ x ∈ c, ∀ y ∈ d, cmp x.id y.id ≠ .eq :=
      ⟨fun c d h x hx y hy hxy => h y hy x hx (OrientedCmp.eq_symm hxy)⟩
    exact absurd heq (h.across.forall hc hd hcd x hxc y hyd)

/-- The classes `L` split into the lists of parts `M`. -/
abbrev Splits (cmp : ℕ → ℕ → Ordering) (L : List (List Slot)) (M : List (List (List Slot))) :
    Prop :=
  List.Forall₂ (IsSplit cmp) L M

theorem exists_splits {f : List Slot → List Slot} (L : List (List Slot)) :
    (∀ c ∈ L, ∃ Lc, f c = Lc.flatten ∧ IsSplit cmp c Lc) →
      ∃ M, L.flatMap f = M.flatten.flatten ∧ Splits cmp L M := by
  induction L with
  | nil => intro _; exact ⟨[], rfl, List.Forall₂.nil⟩
  | cons c L ih =>
    intro h
    obtain ⟨Lc, hf, hsplit⟩ := h c List.mem_cons_self
    obtain ⟨M, hM, hsplits⟩ := ih fun d hd => h d (List.mem_cons_of_mem _ hd)
    refine ⟨Lc :: M, ?_, List.Forall₂.cons hsplit hsplits⟩
    rw [List.flatMap_cons, hf, hM, List.flatten_cons, List.flatten_append]

variable {M : List (List (List Slot))}

theorem Splits.perm (h : Splits cmp L M) :
    (ids M.flatten.flatten).Perm (ids L.flatten) := by
  induction h with
  | nil => exact List.Perm.refl _
  | cons hsplit _ ih =>
    simp only [ids, List.flatten_cons, List.flatten_append, List.map_append]
    exact hsplit.perm.append ih

theorem Splits.of_part (h : Splits cmp L M) :
    ∀ d ∈ M.flatten, ∃ c ∈ L, ∃ Lc, IsSplit cmp c Lc ∧ d ∈ Lc := by
  induction h with
  | nil => intro d hd; exact absurd hd List.not_mem_nil
  | @cons c Lc L M hsplit _ ih =>
    intro d hd
    rw [List.flatten_cons, List.mem_append] at hd
    rcases hd with hd | hd
    · exact ⟨c, List.mem_cons_self, Lc, hsplit, hd⟩
    · obtain ⟨c', hc', rest⟩ := ih d hd
      exact ⟨c', List.mem_cons_of_mem _ hc', rest⟩

theorem Splits.of_class (h : Splits cmp L M) : ∀ c ∈ L, ∃ Lc ∈ M, IsSplit cmp c Lc := by
  induction h with
  | nil => intro c hc; exact absurd hc List.not_mem_nil
  | @cons c Lc L M hsplit _ ih =>
    intro d hd
    rcases List.mem_cons.mp hd with rfl | hd
    · exact ⟨Lc, List.mem_cons_self, hsplit⟩
    · obtain ⟨Ld, hLd, hs⟩ := ih d hd
      exact ⟨Ld, List.mem_cons_of_mem _ hLd, hs⟩

theorem IsSplit.length_pos {run : List Slot} (h : IsSplit cmp run L) (hrun : run ≠ []) :
    0 < L.length := by
  cases L with
  | nil => exact absurd (List.map_eq_nil_iff.mp h.perm.symm.eq_nil) hrun
  | cons c L => simp

theorem Splits.length_le (h : Splits cmp L M) :
    (∀ c ∈ L, c ≠ []) → L.length ≤ M.flatten.length := by
  induction h with
  | nil => intro _; exact le_rfl
  | @cons c Lc L M hsplit _ ih =>
    intro hne
    have hpos := hsplit.length_pos (hne c List.mem_cons_self)
    have htail := ih fun d hd => hne d (List.mem_cons_of_mem _ hd)
    rw [List.flatten_cons, List.length_append, List.length_cons]
    omega

/-- If the number of classes stays the same, no class was split. -/
theorem Splits.one_part (h : Splits cmp L M) : (∀ c ∈ L, c ≠ []) → M.flatten.length = L.length →
      ∀ c ∈ L, ∃ d ∈ M.flatten, (ids d).Perm (ids c) ∧
        ∀ i ∈ ids c, ∀ j ∈ ids c, cmp i j = .eq := by
  induction h with
  | nil => intro _ _ c hc; exact absurd hc List.not_mem_nil
  | @cons c Lc L M hsplit hrest ih =>
    intro hne hlen e he
    have hpos := hsplit.length_pos (hne c List.mem_cons_self)
    have hne' : ∀ d ∈ L, d ≠ [] := fun d hd => hne d (List.mem_cons_of_mem _ hd)
    have hle := Splits.length_le hrest hne'
    rw [List.flatten_cons, List.length_append, List.length_cons] at hlen
    rcases List.mem_cons.mp he with rfl | he
    · obtain ⟨d, hd⟩ : ∃ d, Lc = [d] := List.length_eq_one_iff.mp (by omega)
      subst hd
      have hperm : (ids d).Perm (ids e) := by simpa using hsplit.perm
      refine ⟨d, by simp, hperm, fun i hi j hj => ?_⟩
      obtain ⟨x, hx, rfl⟩ := List.mem_map.mp (hperm.mem_iff.mpr hi)
      obtain ⟨y, hy, rfl⟩ := List.mem_map.mp (hperm.mem_iff.mpr hj)
      exact hsplit.within d (by simp) x hx y hy
    · obtain ⟨d, hd, rest⟩ := ih hne' (by omega) e he
      refine ⟨d, ?_, rest⟩
      rw [List.flatten_cons, List.mem_append]
      exact .inr hd

/-- Splits of runs that never compare equal across make one split. -/
theorem isSplit_flatMap {f : List Slot → List Slot} (G : List (List Slot)) :
    (∀ g ∈ G, ∃ L, f g = L.flatten ∧ IsSplit cmp g L) →
      G.Pairwise (fun g h => ∀ x ∈ g, ∀ y ∈ h, cmp x.id y.id ≠ .eq) →
      ∃ L, G.flatMap f = L.flatten ∧ IsSplit cmp G.flatten L := by
  induction G with
  | nil =>
    intro _ _
    refine ⟨[], rfl, ?_⟩
    constructor <;> simp
  | cons g G ih =>
    intro h hne
    obtain ⟨hg, hG⟩ := List.pairwise_cons.mp hne
    obtain ⟨L₁, hf, hsplit₁⟩ := h g List.mem_cons_self
    obtain ⟨L₂, hfs, hsplit₂⟩ := ih (fun g' hg' => h g' (List.mem_cons_of_mem _ hg')) hG
    refine ⟨L₁ ++ L₂, ?_, ?_⟩
    · rw [List.flatMap_cons, hf, hfs, List.flatten_append]
    · rw [List.flatten_cons]
      refine hsplit₁.append hsplit₂ fun x hx y hy => ?_
      obtain ⟨g', hg', hy⟩ := List.mem_flatten.mp hy
      exact hg g' hg' x hx y hy

end Rounds

/-! ### Round 0 -/

/-- The comparison of slots by hash alone. -/
abbrev hashOnly (x y : Slot) : Ordering := compare x.hash y.hash

instance hashOnly_transCmp : TransCmp hashOnly :=
  inferInstanceAs (TransCmp (compareOn Slot.hash))

theorem hashOnly_eq_iff {x y : Slot} : hashOnly x y = .eq ↔ x.hash = y.hash := by
  rw [hashOnly]
  exact LawfulEqCmp.compare_eq_iff_eq

theorem markHashRuns_eq_groups (l : List Slot) (p : Slot) (h : ∀ x ∈ p :: l, x.start = false) :
    { p with start := true } :: markHashRuns (some p.hash) l =
      ((groups hashOnly (p :: l)).map flag).flatten := by
  refine @flags_eq_groups hashOnly (fun p l => markHashRuns (some p.hash) l) (fun _ => rfl)
    (fun p y l => ?_) l p h
  have hbne : (some p.hash != some y.hash) = (hashOnly p y != .eq) := by
    rw [Bool.eq_iff_iff, bne_iff_ne, bne_iff_ne, ne_eq, ne_eq, hashOnly_eq_iff, Option.some.injEq]
  rw [markHashRuns, hbne]

theorem markHashRuns_none (l : List Slot) (hclear : ∀ x ∈ l, x.start = false) :
    markHashRuns none l = ((groups hashOnly l).map flag).flatten := by
  cases l with
  | nil => rfl
  | cons p l =>
    rw [← markHashRuns_eq_groups l p hclear]
    rfl

/-- The slots of round 0: the eligible sections. -/
def eligibleSlots (h : HashFn) (input : IcfInput) (mode : IcfMode) : List Slot :=
  ((List.range input.len).filter (eligible input mode)).map fun id =>
    { hash := constantHash input h id, id := id, start := false, done := false }

theorem ids_eligibleSlots (h : HashFn) (input : IcfInput) (mode : IcfMode) :
    ids (eligibleSlots h input mode) = (List.range input.len).filter (eligible input mode) := by
  simp [ids, eligibleSlots, List.map_map, Function.comp_def]

theorem mem_eligibleSlots {h : HashFn} {x : Slot} (hx : x ∈ eligibleSlots h input mode) :
    x.hash = constantHash input h x.id ∧ x.start = false ∧ x.done = false := by
  obtain ⟨id, _, rfl⟩ := List.mem_map.mp hx
  exact ⟨rfl, rfl, rfl⟩

/-- Round 0 splits the eligible sections by their constant parts. -/
theorem roundZero_split (h : HashFn) (input : IcfInput) (mode : IcfMode) :
    ∃ P, roundZero h input mode = commit input id P.flatten ∧
      IsSplit (compareConstant input) (eligibleSlots h input mode) P := by
  let sorted := (eligibleSlots h input mode).mergeSort hashOrder
  have hperm : sorted.Perm (eligibleSlots h input mode) := List.mergeSort_perm _ _
  have hslot : ∀ x ∈ sorted, x.hash = constantHash input h x.id ∧ x.start = false ∧
      x.done = false := fun x hx => mem_eligibleSlots (hperm.mem_iff.mp hx)
  have hsorted : SortedBy hashCmp sorted := pairwise_mergeSort_cmp _
  have hnodup : (ids sorted).Nodup := by
    refine (hperm.map Slot.id).nodup_iff.mpr ?_
    rw [show (eligibleSlots h input mode).map Slot.id = _ from ids_eligibleSlots h input mode]
    exact List.nodup_range.filter _
  have hhash : SortedBy hashOnly sorted := hsorted.imp fun {x y} hxy => by
    cases hc : compare x.hash y.hash <;> simp_all [hashCmp, hashOnly]
  let G := groups hashOnly sorted
  have hflat : G.flatten = sorted := groups_flatten hashOnly sorted
  have hsub : ∀ g ∈ G, g.Sublist sorted := fun g hg => hflat ▸ List.sublist_flatten_of_mem hg
  have hchunks : chunks (markHashRuns none sorted) = G.map flag := by
    rw [markHashRuns_none sorted fun x hx => (hslot x hx).2.1]
    refine chunks_flatten fun c hc => ?_
    obtain ⟨g, hg, rfl⟩ := List.mem_map.mp hc
    exact flag_flagged (groups_ne_nil _ _ g hg)
      fun x hx => (hslot x ((hsub g hg).subset hx)).2.1
  obtain ⟨P, hP, hsplit⟩ := isSplit_flatMap (f := splitRun (compareConstant input)) (G.map flag)
    (by
      intro c hc
      obtain ⟨g, hg, rfl⟩ := List.mem_map.mp hc
      refine splitRun_isSplit (compareConstant input) ?_ ?_
      · rw [flag_map_id]
        refine ascending_of_hash ((hsub g hg).map Slot.id |>.nodup hnodup)
          (hsorted.sublist (hsub g hg)) fun x hx y hy => ?_
        exact hashOnly_eq_iff.mp (groups_within _ g hg x hx y hy)
      · intro x hx
        obtain ⟨y, hy, _, hdone⟩ := mem_flag hx
        rw [← hdone]
        exact (hslot y ((hsub g hg).subset hy)).2.2)
    (by
      -- Slots of different hash runs differ in a constant part.
      refine List.pairwise_map.mpr ((groups_across sorted hhash).imp_of_mem ?_)
      intro g g' hg hg' hlt x hx y hy hxy
      obtain ⟨x', hx', hxid, _⟩ := mem_flag hx
      obtain ⟨y', hy', hyid, _⟩ := mem_flag hy
      have hne : hashOnly x' y' ≠ .eq := by
        rw [hlt x' hx' y' hy']
        decide
      refine hne (hashOnly_eq_iff.mpr ?_)
      rw [(hslot x' ((hsub g hg).subset hx')).1, (hslot y' ((hsub g' hg').subset hy')).1, hxid,
        hyid]
      exact constantHash_congr h ((compareConstant_eq_iff _ _).mp hxy))
  refine ⟨P, ?_, { hsplit with perm := hsplit.perm.trans ?_ }⟩
  · show commit input id ((chunks (markHashRuns none sorted)).flatMap _) = _
    rw [hchunks, hP]
  · rw [flatten_map_flag, hflat]
    exact hperm.map Slot.id

/-- **Round 0 establishes the invariant.** -/
theorem roundZero_inv (h : HashFn) (input : IcfInput) (mode : IcfMode) :
    ∃ L, (roundZero h input mode).work = L.flatten ∧
      Inv input mode (roundZero h input mode).classOf L ∧ L.flatten.length ≤ input.len := by
  obtain ⟨P, hP, hsplit⟩ := roundZero_split h input mode
  have hids := ids_eligibleSlots h input mode
  have hlisted : ∀ i, (∃ c ∈ P, i ∈ ids c) ↔ i < input.len ∧ eligible input mode i = true := by
    intro i
    have hmem := hsplit.perm.mem_iff (a := i)
    rw [show (eligibleSlots h input mode).map Slot.id = _ from hids, List.mem_filter,
      List.mem_range] at hmem
    rw [← hmem]
    simp only [ids, List.mem_map, List.mem_flatten]
    constructor
    · rintro ⟨c, hc, x, hx, rfl⟩
      exact ⟨x, ⟨c, hc, hx⟩, rfl⟩
    · rintro ⟨x, ⟨c, hc, hx⟩, rfl⟩
      exact ⟨c, hc, x, hx, rfl⟩
  have hcommit : Committable id P := by
    refine ⟨hsplit.flagged, ?_, hsplit.ascending, fun i hi => ⟨hi, le_rfl, rfl⟩⟩
    refine hsplit.perm.nodup_iff.mpr ?_
    rw [show (eligibleSlots h input mode).map Slot.id = _ from hids]
    exact List.nodup_range.filter _
  refine ⟨P.filter fun c => !isFinal input c, ?_, ?_, ?_⟩
  · rw [hP]
    exact commit_work input id hsplit.flagged hsplit.notDone
  · rw [hP]
    simp only [commit, chunks_flatten hsplit.flagged]
    refine hcommit.inv hsplit.notDone ?_ (fun i j _ _ _ h => h) (fun i j _ _ h => .inl h) ?_ ?_ ?_
    · intro c hc i hi
      exact ((hlisted i).mp ⟨c, hc, hi⟩).2
    · intro c hc i hi j hj
      obtain ⟨x, hx, rfl⟩ := List.mem_map.mp hi
      obtain ⟨y, hy, rfl⟩ := List.mem_map.mp hj
      exact (compareConstant_eq_iff _ _).mp (hsplit.within c hc x hx y hy)
    · rintro i j _ _ rfl
      exact ⟨rfl, rfl, rfl⟩
    · intro E hE i j hij
      have hmem : ∀ k : Fin input.len, eligible input mode k = true →
          k.val ∈ ids (eligibleSlots h input mode) := by
        intro k hk
        rw [hids]
        exact List.mem_filter.mpr ⟨List.mem_range.mpr k.isLt, hk⟩
      cases hi : eligible input mode i with
      | false =>
        have hout : Outside P i := fun c hc hic => by
          rw [((hlisted i).mp ⟨c, hc, hic⟩).2] at hi
          exact absurd hi (by decide)
        have heq := hE.alone i j hi hij
        exact .inr ⟨hout, heq ▸ hout, congrArg Fin.val heq⟩
      | true =>
        cases hj : eligible input mode j with
        | false =>
          rw [← hE.alone j i hj (E.symm hij), hj] at hi
          exact absurd hi (by decide)
        | true =>
          exact .inl (hsplit.same_part (hmem i hi) (hmem j hj)
            ((compareConstant_eq_iff _ _).mpr (hE.constant i j hij)))
  · have hle : (P.filter fun c => !isFinal input c).flatten.length ≤ P.flatten.length :=
      (List.Sublist.flatten List.filter_sublist).length_le
    have hlen : P.flatten.length =
        ((List.range input.len).filter (eligible input mode)).length := by
      rw [← hids, ← List.length_map Slot.id, hsplit.perm.length_eq]
    have hfil := List.length_filter_le (eligible input mode) (List.range input.len)
    rw [List.length_range] at hfil
    omega

/-! ### A refinement round -/

section Round

variable {cl : ℕ → ℕ} {L : List (List Slot)}

/-- Stores the hash of the target classes. -/
def rehash (h : HashFn) (input : IcfInput) (cl : ℕ → ℕ) (slot : Slot) : Slot :=
  { slot with hash := variableHash input cl h slot.id }

theorem ids_rehash (h : HashFn) (c : List Slot) : ids (c.map (rehash h input cl)) = ids c := by
  simp [ids, rehash]

theorem Flagged.rehash {h : HashFn} {c : List Slot} (hc : Flagged c) :
    Flagged (c.map (rehash h input cl)) := by
  obtain ⟨s, rest, rfl, hs, hrest⟩ := hc
  refine ⟨_, _, rfl, hs, fun x hx => ?_⟩
  obtain ⟨y, hy, rfl⟩ := List.mem_map.mp hx
  exact hrest y hy

/-- A round splits every working class by the classes of the targets. -/
theorem splitWork_splits (h : HashFn) (hinv : Inv input mode cl L) :
    ∃ M, splitWork h input ⟨cl, L.flatten⟩ = M.flatten.flatten ∧
      Splits (compareVariable input cl) L M := by
  have hchunks : chunks (L.flatten.map (rehash h input cl)) =
      L.map (List.map (rehash h input cl)) := by
    rw [List.map_flatten]
    refine chunks_flatten fun c hc => ?_
    obtain ⟨d, hd, rfl⟩ := List.mem_map.mp hc
    exact (hinv.flagged d hd).rehash
  obtain ⟨M, hM, hsplits⟩ := @exists_splits (compareVariable input cl)
    (fun c => splitClass (compareVariable input cl) (c.map (rehash h input cl))) L
    fun c hc => by
      have hsub : (ids c).Sublist (ids L.flatten) :=
        (List.sublist_flatten_of_mem hc).map Slot.id
      obtain ⟨Lc, hLc, hsplit⟩ := splitClass_isSplit (compareVariable input cl)
        (show (ids (c.map (rehash h input cl))).Nodup by
          rw [ids_rehash]
          exact hsub.nodup hinv.disjoint)
        (fun x hx => by
          obtain ⟨y, hy, rfl⟩ := List.mem_map.mp hx
          exact hinv.notDone y (List.mem_flatten.mpr ⟨c, hc, hy⟩))
        (fun x hx y hy hxy => by
          obtain ⟨x, hxc, rfl⟩ := List.mem_map.mp hx
          obtain ⟨y, hyc, rfl⟩ := List.mem_map.mp hy
          have hcl := (hinv.member c hc x.id (List.mem_map_of_mem hxc) y.id).mpr
            (List.mem_map_of_mem hyc)
          exact variableHash_congr h (hinv.constant _ _ hcl) hxy)
      refine ⟨Lc, hLc, { hsplit with perm := hsplit.perm.trans ?_ }⟩
      exact List.Perm.of_eq (ids_rehash h c)
  refine ⟨M, ?_, hsplits⟩
  show (chunks (L.flatten.map (rehash h input cl))).flatMap _ = _
  rw [hchunks, List.flatMap_map, hM]

theorem outside_iff (P : List (List Slot)) (i : ℕ) : Outside P i ↔ i ∉ ids P.flatten := by
  simp only [Outside, ids, List.mem_map, List.mem_flatten]
  constructor
  · rintro h ⟨x, ⟨c, hc, hx⟩, rfl⟩
    exact h c hc ⟨x, hx, rfl⟩
  · rintro h c hc ⟨x, hx, rfl⟩
    exact h ⟨x, ⟨c, hc, hx⟩, rfl⟩

variable {i j : ℕ}

/-- A class of the partition lies in one working class or outside all of them. -/
theorem Inv.outside_of_eq (hinv : Inv input mode cl L) (hi : Outside L i) (heq : cl i = cl j) :
    Outside L j := by
  intro c hc hj
  exact hi c hc ((hinv.member c hc j hj i).mp heq.symm)

variable {M : List (List (List Slot))}

variable {cmp : ℕ → ℕ → Ordering}

theorem Splits.outside_iff_outside (h : Splits cmp L M) (i : ℕ) :
    Outside M.flatten i ↔ Outside L i := by
  rw [outside_iff, outside_iff, h.perm.mem_iff]

/-- A part of a split class lists members of one class. -/
theorem Inv.eq_of_part (hinv : Inv input mode cl L) (hsplits : Splits cmp L M) {d : List Slot}
    (hd : d ∈ M.flatten) (hi : i ∈ ids d) (hj : j ∈ ids d) : cl i = cl j := by
  obtain ⟨c, hc, Lc, hsplit, hd⟩ := hsplits.of_part d hd
  have hsub : (ids d).Sublist (ids Lc.flatten) := (List.sublist_flatten_of_mem hd).map Slot.id
  have hmem : ∀ k ∈ ids d, k ∈ ids c := fun k hk => hsplit.perm.mem_iff.mp (hsub.subset hk)
  exact (hinv.member c hc i (hmem i hi) j).mpr (hmem j hj)

theorem Inv.committable (hinv : Inv input mode cl L) (hsplits : Splits cmp L M) :
    Committable cl M.flatten where
  flagged d hd := by
    obtain ⟨c, _, Lc, hsplit, hd⟩ := hsplits.of_part d hd
    exact hsplit.flagged d hd
  disjoint := hsplits.perm.nodup_iff.mpr hinv.disjoint
  ascending d hd := by
    obtain ⟨c, _, Lc, hsplit, hd⟩ := hsplits.of_part d hd
    exact hsplit.ascending d hd
  outside i hi := by
    rw [hsplits.outside_iff_outside] at hi ⊢
    exact ⟨hinv.outside_of_eq hi (hinv.lowest i).2.symm, hinv.lowest i⟩

theorem Inv.round {cl : ℕ → ℕ} {L : List (List Slot)} {M : List (List (List Slot))}
    (hinv : Inv input mode cl L) (hsplits : Splits (compareVariable input cl) L M) :
    Inv input mode (M.flatten.foldl storeClass cl)
      (M.flatten.filter fun c => !isFinal input c) := by
  refine (hinv.committable hsplits).inv ?_ ?_ ?_ ?_ ?_ ?_ ?_
  · intro x hx
    obtain ⟨d, hd, hx⟩ := List.mem_flatten.mp hx
    obtain ⟨c, _, Lc, hsplit, hd⟩ := hsplits.of_part d hd
    exact hsplit.notDone x (List.mem_flatten.mpr ⟨d, hd, hx⟩)
  · intro d hd i hi
    have hout : ¬ Outside L i := fun hout => (hsplits.outside_iff_outside i).mpr hout d hd hi
    obtain ⟨c, hc, hic⟩ := (listed_or_outside L i).resolve_right hout
    exact hinv.eligible c hc i hic
  · intro i j _ _ hne heq
    exact hinv.alone i j hne heq
  · intro i j hi _ heq
    exact hinv.retired i j ((hsplits.outside_iff_outside i).mp hi) heq
  · intro d hd i hi j hj
    exact hinv.constant i j (hinv.eq_of_part hsplits hd hi hj)
  · intro i j _ _ heq
    exact hinv.constant i j heq
  · intro E hE i j hij
    have heq := hinv.coarse E hE i j hij
    rcases listed_or_outside L i with ⟨c, hc, hic⟩ | hi
    · -- Both are in `c`, and an admissible partition keeps their targets together.
      have hjc := (hinv.member c hc i hic j).mp heq
      obtain ⟨Lc, hLc, hsplit⟩ := hsplits.of_class c hc
      have hcmp : compareVariable input cl i j = .eq := by
        refine compareVariable_eq_of_targets (hinv.constant i j heq) ?_
        intro k r r' hr hr' s s' o o' hs hs'
        exact hinv.coarse E hE ⟨s, target_lt hr hs⟩ ⟨s', target_lt hr' hs'⟩
          (hE.targets i j hij k r r' hr hr' _ _ o o' hs hs')
      obtain ⟨d, hd, hid, hjd⟩ := hsplit.same_part hic hjc hcmp
      exact .inl ⟨d, List.mem_flatten.mpr ⟨Lc, hLc, hd⟩, hid, hjd⟩
    · refine .inr ⟨?_, ?_, heq⟩
      · exact (hsplits.outside_iff_outside i).mpr hi
      · exact (hsplits.outside_iff_outside j).mpr (hinv.outside_of_eq hi heq)

/-! ### The end of the loop -/

/-- No class can be split: members of one class have corresponding targets in one class. -/
def Stable (input : IcfInput) (cl : ℕ → ℕ) : Prop :=
  ∀ i j, cl i = cl j → compareVariable input cl i j = .eq

/-- Sections of a retired class compare equal under all class ids. -/
theorem Inv.compareVariable_of_outside (hinv : Inv input mode cl L) (hi : Outside L i)
    (heq : cl i = cl j) (cl' : ℕ → ℕ) : compareVariable input cl' i j = .eq := by
  rcases hinv.retired i j hi heq with rfl | hno
  · exact ReflCmp.compare_self
  · refine compareVariable_eq_of_targets (hinv.constant i j heq) ?_
    intro k r r' hr _ s s' o o' hs _
    rw [hasSectionTargets, List.any_eq_false] at hno
    have hr := hno r (List.mem_of_getElem? hr)
    simp [hs] at hr

theorem Inv.stable_of_nil (hinv : Inv input mode cl []) : Stable input cl := by
  intro i j heq
  exact hinv.compareVariable_of_outside (fun c hc => absurd hc List.not_mem_nil) heq cl

/-- A round that splits no class leaves a stable partition. -/
theorem Inv.stable_of_length (hinv : Inv input mode cl L)
    (hsplits : Splits (compareVariable input cl) L M) (hlen : M.flatten.length = L.length) :
    Stable input (M.flatten.foldl storeClass cl) := by
  have hcommit := hinv.committable hsplits
  have hone := hsplits.one_part (fun c hc => (hinv.flagged c hc).ne_nil) hlen
  -- The round changes no class, so equal classes before it are equal classes after it.
  have hkeep : ∀ i j, cl i = cl j →
      M.flatten.foldl storeClass cl i = M.flatten.foldl storeClass cl j := by
    intro i j heq
    rw [hcommit.same_class_iff]
    rcases listed_or_outside L i with ⟨c, hc, hic⟩ | hi
    · obtain ⟨d, hd, hperm, _⟩ := hone c hc
      have hjc := (hinv.member c hc i hic j).mp heq
      exact .inl ⟨d, hd, hperm.mem_iff.mpr hic, hperm.mem_iff.mpr hjc⟩
    · refine .inr ⟨?_, ?_, heq⟩
      · exact (hsplits.outside_iff_outside i).mpr hi
      · exact (hsplits.outside_iff_outside j).mpr (hinv.outside_of_eq hi heq)
  have hback : ∀ i j, M.flatten.foldl storeClass cl i = M.flatten.foldl storeClass cl j →
      cl i = cl j := by
    intro i j heq
    rcases (hcommit.same_class_iff i j).mp heq with ⟨d, hd, hi, hj⟩ | ⟨_, _, heq⟩
    · exact hinv.eq_of_part hsplits hd hi hj
    · exact heq
  intro i j heq
  have heq := hback i j heq
  have hcmp : compareVariable input cl i j = .eq := by
    rcases listed_or_outside L i with ⟨c, hc, hic⟩ | hi
    · obtain ⟨_, _, _, hall⟩ := hone c hc
      exact hall i hic j ((hinv.member c hc i hic j).mp heq)
    · exact hinv.compareVariable_of_outside hi heq cl
  refine compareVariable_eq_of_targets (hinv.constant i j heq) ?_
  intro k r r' hr hr' s s' o o' hs hs'
  exact hkeep s s' (targets_of_compareVariable_eq hcmp hr hr' hs hs')

end Round

/-! ### Termination -/

/-- How many more classes the working set can split into. -/
def slack (L : List (List Slot)) : ℕ := (L.map fun c => c.length - 1).sum

theorem slack_add_length (L : List (List Slot)) :
    (∀ c ∈ L, c ≠ []) → slack L + L.length = L.flatten.length := by
  induction L with
  | nil => intro _; rfl
  | cons c L ih =>
    intro hne
    have hc := List.length_pos_iff.mpr (hne c List.mem_cons_self)
    have hL := ih fun d hd => hne d (List.mem_cons_of_mem _ hd)
    simp only [slack, List.map_cons, List.sum_cons, List.length_cons, List.flatten_cons,
      List.length_append] at hL ⊢
    omega

theorem slack_filter_le (p : List Slot → Bool) (L : List (List Slot)) :
    slack (L.filter p) ≤ slack L := by
  induction L with
  | nil => exact le_rfl
  | cons c L ih =>
    simp only [slack] at ih
    rw [List.filter_cons]
    split <;> simp only [slack, List.map_cons, List.sum_cons] <;> omega

/-- **The loop ends with a stable partition.**  The bound on the rounds is the number
of classes that can still appear. -/
theorem refine_spec (h : HashFn) (n : ℕ) :
    ∀ (cl : ℕ → ℕ) (L : List (List Slot)) (rounds : ℕ), slack L = n → Inv input mode cl L →
      ∃ s' rounds', (∀ fuel > n, refine h input fuel ⟨cl, L.flatten⟩ rounds = some (s', rounds')) ∧
        (∃ L', Inv input mode s'.classOf L') ∧ Stable input s'.classOf := by
  induction n using Nat.strong_induction_on with
  | _ n ih =>
    intro cl L rounds hslack hinv
    have hne : ∀ c ∈ L, c ≠ [] := fun c hc => (hinv.flagged c hc).ne_nil
    by_cases hnil : L = []
    · subst hnil
      refine ⟨⟨cl, []⟩, rounds, fun fuel hfuel => ?_, ⟨[], hinv⟩, hinv.stable_of_nil⟩
      obtain ⟨fuel, rfl⟩ := Nat.exists_eq_add_of_lt hfuel
      rfl
    · have hwork : L.flatten.isEmpty = false := by
        rw [List.isEmpty_eq_false_iff, Ne, List.flatten_eq_nil_iff]
        intro hall
        obtain ⟨c, hc⟩ := List.exists_mem_of_ne_nil L hnil
        exact hne c hc (hall c hc)
      obtain ⟨M, hM, hsplits⟩ := splitWork_splits h hinv
      have hinv' := hinv.round hsplits
      have hflag := (hinv.committable hsplits).flagged
      have hdone : ∀ x ∈ M.flatten.flatten, x.done = false := by
        intro x hx
        obtain ⟨d, hd, hx⟩ := List.mem_flatten.mp hx
        obtain ⟨c, _, Lc, hsplit, hd⟩ := hsplits.of_part d hd
        exact hsplit.notDone x (List.mem_flatten.mpr ⟨d, hd, hx⟩)
      have hcommit : commit input cl M.flatten.flatten = ⟨M.flatten.foldl storeClass cl,
          (M.flatten.filter fun c => !isFinal input c).flatten⟩ := by
        rw [← commit_work input cl hflag hdone, commit, chunks_flatten hflag]
      have hstep : ∀ fuel, refine h input (fuel + 1) ⟨cl, L.flatten⟩ rounds =
          if M.flatten.length = L.length then some (commit input cl M.flatten.flatten, rounds + 1)
          else refine h input fuel (commit input cl M.flatten.flatten) (rounds + 1) := by
        intro fuel
        rw [refine]
        simp only [hwork, hM, countClasses_flatten hinv.flagged, countClasses_flatten hflag,
          Bool.false_eq_true, if_false]
      rw [hcommit] at hstep
      by_cases hlen : M.flatten.length = L.length
      · refine ⟨⟨M.flatten.foldl storeClass cl,
          (M.flatten.filter fun c => !isFinal input c).flatten⟩, rounds + 1, fun fuel hfuel => ?_,
          ⟨_, hinv'⟩, hinv.stable_of_length hsplits hlen⟩
        obtain ⟨fuel, rfl⟩ := Nat.exists_eq_add_of_lt hfuel
        rw [hstep, if_pos hlen]
      · -- A class was split, so there is less left to split.
        have hmore := hsplits.length_le hne
        have hsame : M.flatten.flatten.length = L.flatten.length := by
          simpa only [ids, List.length_map] using hsplits.perm.length_eq
        have hold := slack_add_length L hne
        have hnew := slack_add_length M.flatten fun c hc => (hflag c hc).ne_nil
        have hfilter := slack_filter_le (fun c => !isFinal input c) M.flatten
        obtain ⟨s', rounds', hrun, hgood⟩ := ih _ (by omega) _ _ (rounds + 1) rfl hinv'
        refine ⟨s', rounds', fun fuel hfuel => ?_, hgood⟩
        obtain ⟨fuel, rfl⟩ := Nat.exists_eq_add_of_lt hfuel
        rw [hstep, if_neg hlen]
        exact hrun _ (by omega)

/-! ### The result -/

/-- The partition of the sections by class ids. -/
def partition (input : IcfInput) (cl : ℕ → ℕ) : Setoid (Fin input.len) :=
  Setoid.comap (fun i => cl i) ⊥

theorem Inv.admissible {cl : ℕ → ℕ} {L : List (List Slot)} (hinv : Inv input mode cl L)
    (hstable : Stable input cl) : Admissible input mode (partition input cl) where
  alone i j hi hij := Fin.ext (hinv.alone i j hi hij)
  constant i j hij := hinv.constant i j hij
  targets i j hij _ _ _ hr hr' _ _ _ _ hs hs' :=
    targets_of_compareVariable_eq (hstable i j hij) hr hr' hs hs'

/-- The loop ends with the greatest admissible partition, and every section is mapped to the
lowest member of its class. -/
theorem foldIdentical_greatest (constant variable_ : HashFn) (input : IcfInput) (mode : IcfMode) :
    ∃ (cl : ℕ → ℕ) (rounds : ℕ),
      (∀ fuel > input.len, foldIdentical constant variable_ input mode fuel =
        some ⟨(List.range input.len).map cl, rounds⟩) ∧
      IsGreatest {E | Admissible input mode E} (partition input cl) ∧
      ∀ i, cl i ≤ i ∧ cl (cl i) = cl i := by
  obtain ⟨L, hwork, hinv, hlen⟩ := roundZero_inv constant input mode
  obtain ⟨s', rounds', hrun, ⟨L', hinv'⟩, hstable⟩ := refine_spec variable_ _ _ L 1 rfl hinv
  have hslack := slack_add_length L fun c hc => (hinv.flagged c hc).ne_nil
  refine ⟨s'.classOf, rounds', fun fuel hfuel => ?_, ⟨hinv'.admissible hstable, ?_⟩, hinv'.lowest⟩
  · rw [foldIdentical, show roundZero constant input mode =
      ⟨(roundZero constant input mode).classOf, L.flatten⟩ from hwork ▸ rfl,
      hrun fuel (by omega)]
    rfl
  · intro E hE i j hij
    exact hinv'.coarse E hE i j hij

/-- **Folding computes the coarsest partition (proved).**  With every pair of hash functions the
folding ends and maps each section to the lowest-numbered member of its class in the coarsest
admissible partition. -/
theorem foldIdentical_coarsest (input : IcfInput) (mode : IcfMode) :
    ∃ E : Setoid (Fin input.len), IsGreatest {E | Admissible input mode E} E ∧
      ∀ constant variable_ : HashFn, ∃ result : IcfResult,
        (∀ fuel > input.len, foldIdentical constant variable_ input mode fuel = some result) ∧
        result.foldInto.length = input.len ∧
        ∀ i : Fin input.len, ∃ j : Fin input.len,
          result.foldInto[i.val]? = some j.val ∧ IsLeast {k | E i k} j := by
  obtain ⟨cl₀, _, _, hgreatest₀, _⟩ := foldIdentical_greatest (fun _ => 0) (fun _ => 0) input mode
  refine ⟨partition input cl₀, hgreatest₀, fun constant variable_ => ?_⟩
  obtain ⟨cl, rounds, hrun, hgreatest, hlowest⟩ :=
    foldIdentical_greatest constant variable_ input mode
  refine ⟨_, hrun, by simp, fun i => ?_⟩
  rw [hgreatest₀.unique hgreatest]
  have hlt : cl i < input.len := Nat.lt_of_le_of_lt (hlowest i).1 i.isLt
  refine ⟨⟨cl i, hlt⟩, by simp, (hlowest i).2.symm, ?_⟩
  intro k hk
  have hik : cl i = cl k := hk
  show cl i ≤ k
  rw [hik]
  exact (hlowest k).1

end Qld.Passes.Icf
