import Qld.Lib.SortedGroups
import Qld.Passes.Icf

/-!
# Splitting classes by an exact comparison

What the list operations of a folding round do to the working set:

* `Flagged` — a class in the working list: its first slot has the start flag, the others do
  not; a list of flagged classes is cut back into them (`chunks_flatten`);
* `IsSplit` — a class split into classes: same slots, each part in ascending order of ids,
  and two slots in one part exactly when they compare equal;
* `splitRun_isSplit`, `splitClass_isSplit` — **proved**, for every comparison that is
  transitive and every hash that respects it.
-/

namespace Qld.Passes.Icf

open Qld.Lib Std

/-! ### Classes in the working list -/

/-- A class in the working list: the start flag is on its first slot only. -/
def Flagged (c : List Slot) : Prop :=
  ∃ s rest, c = s :: rest ∧ s.start = true ∧ ∀ x ∈ rest, x.start = false

variable {c g run : List Slot}

theorem Flagged.ne_nil (h : Flagged c) : c ≠ [] := by
  obtain ⟨s, rest, rfl, _⟩ := h
  exact List.cons_ne_nil _ _

theorem Flagged.isChain (h : Flagged c) :
    c.IsChain fun _ next => (!next.start) = true := by
  obtain ⟨s, rest, rfl, hs, hrest⟩ := h
  clear hs
  induction rest generalizing s with
  | nil => exact List.IsChain.singleton _
  | cons y rest ih =>
    refine List.IsChain.cons_cons (by rw [hrest y List.mem_cons_self]; rfl) ?_
    exact ih y (fun x hx => hrest x (List.mem_cons_of_mem _ hx))

variable {L : List (List Slot)}

/-- A list of flagged classes is cut back into them. -/
theorem chunks_flatten (h : ∀ c ∈ L, Flagged c) :
    chunks L.flatten = L := by
  refine List.splitBy_flatten (fun hnil => (h [] hnil).ne_nil rfl)
    (fun c hc => (h c hc).isChain) ?_
  induction L with
  | nil => exact List.IsChain.nil
  | cons c L ih =>
    cases L with
    | nil => exact List.IsChain.singleton _
    | cons d L =>
      refine List.IsChain.cons_cons ?_ (ih fun c hc => h c (List.mem_cons_of_mem _ hc))
      refine ⟨(h c List.mem_cons_self).ne_nil, (h d (by simp)).ne_nil, ?_⟩
      obtain ⟨s, rest, rfl, hs, _⟩ := h d (by simp)
      simp [hs]

theorem countClasses_flatten (h : ∀ c ∈ L, Flagged c) :
    countClasses L.flatten = L.length := by
  induction L with
  | nil => rfl
  | cons c L ih =>
    obtain ⟨s, rest, rfl, hs, hrest⟩ := h c List.mem_cons_self
    have hzero : rest.countP (·.start) = 0 := by
      rw [List.countP_eq_zero]
      intro x hx
      simp [hrest x hx]
    have htail := ih fun c hc => h c (List.mem_cons_of_mem _ hc)
    rw [countClasses] at htail ⊢
    simp only [List.flatten_cons, List.countP_append, List.countP_cons, hs, hzero, htail,
      List.length_cons, if_true]
    omega

/-- Sets the start flag of the first slot. -/
def flag : List Slot → List Slot
  | [] => []
  | s :: rest => { s with start := true } :: rest

theorem flag_flagged (hne : g ≠ []) (hclear : ∀ x ∈ g, x.start = false) :
    Flagged (flag g) := by
  cases g with
  | nil => exact absurd rfl hne
  | cons s rest => exact ⟨_, rest, rfl, rfl, fun x hx => hclear x (List.mem_cons_of_mem _ hx)⟩

@[simp] theorem flag_map_id (g : List Slot) : (flag g).map Slot.id = g.map Slot.id := by
  cases g <;> rfl

variable {x : Slot}

theorem mem_flag (hx : x ∈ flag g) :
    ∃ y ∈ g, y.id = x.id ∧ y.done = x.done := by
  cases g with
  | nil => exact absurd hx List.not_mem_nil
  | cons s rest =>
    rcases List.mem_cons.mp hx with rfl | hx
    · exact ⟨s, List.mem_cons_self, rfl, rfl⟩
    · exact ⟨x, List.mem_cons_of_mem _ hx, rfl, rfl⟩

theorem flatten_map_flag (G : List (List Slot)) :
    (G.map flag).flatten.map Slot.id = G.flatten.map Slot.id := by
  induction G with
  | nil => rfl
  | cons g G ih => simp only [List.map_cons, List.flatten_cons, List.map_append, flag_map_id, ih]

/-! ### Splitting by a comparison -/

/-- The slots `run` split into the classes `L` of a comparison of ids. -/
structure IsSplit (cmp : ℕ → ℕ → Ordering) (run : List Slot) (L : List (List Slot)) : Prop where
  flagged : ∀ c ∈ L, Flagged c
  ascending : ∀ c ∈ L, (c.map Slot.id).Pairwise (· < ·)
  perm : (L.flatten.map Slot.id).Perm (run.map Slot.id)
  notDone : ∀ x ∈ L.flatten, x.done = false
  within : ∀ c ∈ L, ∀ x ∈ c, ∀ y ∈ c, cmp x.id y.id = .eq
  across : L.Pairwise fun c d => ∀ x ∈ c, ∀ y ∈ d, cmp x.id y.id ≠ .eq

variable {cmp : ℕ → ℕ → Ordering}

theorem IsSplit.mem_run (h : IsSplit cmp run L) (hx : x ∈ L.flatten) :
    ∃ y ∈ run, y.id = x.id := by
  have hid : x.id ∈ run.map Slot.id := h.perm.mem_iff.mp (List.mem_map_of_mem hx)
  obtain ⟨y, hy, hyx⟩ := List.mem_map.mp hid
  exact ⟨y, hy, hyx⟩

/-- Two splits of disjoint runs that never compare equal make one split. -/
theorem IsSplit.append {run₁ run₂ : List Slot} {L₁ L₂ : List (List Slot)} (h₁ : IsSplit cmp run₁ L₁)
    (h₂ : IsSplit cmp run₂ L₂) (hne : ∀ x ∈ run₁, ∀ y ∈ run₂, cmp x.id y.id ≠ .eq) :
    IsSplit cmp (run₁ ++ run₂) (L₁ ++ L₂) where
  flagged c hc := (List.mem_append.mp hc).elim (h₁.flagged c) (h₂.flagged c)
  ascending c hc := (List.mem_append.mp hc).elim (h₁.ascending c) (h₂.ascending c)
  perm := by
    simp only [List.flatten_append, List.map_append]
    exact h₁.perm.append h₂.perm
  notDone x hx := by
    rw [List.flatten_append, List.mem_append] at hx
    exact hx.elim (h₁.notDone x) (h₂.notDone x)
  within c hc := (List.mem_append.mp hc).elim (h₁.within c) (h₂.within c)
  across := by
    refine List.pairwise_append.mpr ⟨h₁.across, h₂.across, ?_⟩
    intro c hc d hd x hx y hy
    obtain ⟨x', hx', hxe⟩ := h₁.mem_run (List.mem_flatten.mpr ⟨c, hc, hx⟩)
    obtain ⟨y', hy', hye⟩ := h₂.mem_run (List.mem_flatten.mpr ⟨d, hd, hy⟩)
    rw [← hxe, ← hye]
    exact hne x' hx' y' hy'

theorem isSplit_map_flag {G : List (List Slot)} (hne : ∀ g ∈ G, g ≠ [])
    (hclear : ∀ x ∈ G.flatten, x.start = false ∧ x.done = false)
    (hasc : ∀ g ∈ G, (g.map Slot.id).Pairwise (· < ·))
    (hperm : (G.flatten.map Slot.id).Perm (run.map Slot.id))
    (hwithin : ∀ g ∈ G, ∀ x ∈ g, ∀ y ∈ g, cmp x.id y.id = .eq)
    (hacross : G.Pairwise fun g h => ∀ x ∈ g, ∀ y ∈ h, cmp x.id y.id ≠ .eq) :
    IsSplit cmp run (G.map flag) where
  flagged c hc := by
    obtain ⟨g, hg, rfl⟩ := List.mem_map.mp hc
    exact flag_flagged (hne g hg) fun x hx => (hclear x (List.mem_flatten.mpr ⟨g, hg, hx⟩)).1
  ascending c hc := by
    obtain ⟨g, hg, rfl⟩ := List.mem_map.mp hc
    rw [flag_map_id]
    exact hasc g hg
  perm := by rwa [flatten_map_flag]
  notDone x hx := by
    obtain ⟨c, hc, hx⟩ := List.mem_flatten.mp hx
    obtain ⟨g, hg, rfl⟩ := List.mem_map.mp hc
    obtain ⟨y, hy, _, hdone⟩ := mem_flag hx
    rw [← hdone]
    exact (hclear y (List.mem_flatten.mpr ⟨g, hg, hy⟩)).2
  within c hc x hx y hy := by
    obtain ⟨g, hg, rfl⟩ := List.mem_map.mp hc
    obtain ⟨x', hx', hxid, _⟩ := mem_flag hx
    obtain ⟨y', hy', hyid, _⟩ := mem_flag hy
    rw [← hxid, ← hyid]
    exact hwithin g hg x' hx' y' hy'
  across := by
    refine List.pairwise_map.mpr (hacross.imp ?_)
    intro g h hgh x hx y hy
    obtain ⟨x', hx', hxid, _⟩ := mem_flag hx
    obtain ⟨y', hy', hyid, _⟩ := mem_flag hy
    rw [← hxid, ← hyid]
    exact hgh x' hx' y' hy'

section Split

variable {cmp : ℕ → ℕ → Ordering}

/-- The comparison of slots by a comparison of their ids. -/
abbrev slotCmp (cmp : ℕ → ℕ → Ordering) (x y : Slot) : Ordering := cmp x.id y.id

/-- The order a run is sorted by: the comparison, then the id. -/
abbrev slotOrder (cmp : ℕ → ℕ → Ordering) (x y : Slot) : Ordering :=
  (cmp x.id y.id).then (compare x.id y.id)

instance slotCmp_transCmp [TransCmp cmp] : TransCmp (slotCmp cmp) where
  eq_swap {x y} := (OrientedCmp.eq_swap : cmp x.id y.id = (cmp y.id x.id).swap)
  isLE_trans {x y z} := (TransCmp.isLE_trans : (cmp x.id y.id).isLE → _ → (cmp x.id z.id).isLE)

instance slotOrder_transCmp [TransCmp cmp] : TransCmp (slotOrder cmp) :=
  inferInstanceAs (TransCmp (compareLex (slotCmp cmp) (slotCmp compare)))

/-- Clears the start flag. -/
abbrev clearStart (slot : Slot) : Slot := { slot with start := false }

/-- A pass that flags each slot which the comparison tells from the one before it. -/
theorem flags_eq_groups {order : Slot → Slot → Ordering} {mark : Slot → List Slot → List Slot}
    (hnil : ∀ p, mark p [] = [])
    (hcons : ∀ p y l, mark p (y :: l) = { y with start := order p y != .eq } :: mark y l)
    (l : List Slot) : ∀ p : Slot, (∀ x ∈ p :: l, x.start = false) →
      { p with start := true } :: mark p l = ((groups order (p :: l)).map flag).flatten := by
  induction l with
  | nil =>
    intro p _
    rw [hnil]
    rfl
  | cons y l ih =>
    intro p hclear
    obtain ⟨g, gs, hy, hp⟩ := groups_cons_cons order p y l
    have hrest := ih y fun x hx => hclear x (List.mem_cons_of_mem _ hx)
    rw [hy] at hrest
    simp only [List.map_cons, flag, List.flatten_cons, List.cons_append,
      List.cons.injEq, true_and] at hrest
    have hstart : y.start = false := hclear y (by simp)
    rw [hp, hcons]
    by_cases hc : order p y = .eq
    · have hsame : { y with start := false } = y := by rw [← hstart]
      simp only [hc, if_true, hrest, List.map_cons, flag, List.flatten_cons, List.cons_append,
        bne_self_eq_false, hsame]
    · simp [hc, hrest, flag]

theorem markStarts_eq_groups (l : List Slot) (p : Slot) (h : ∀ x ∈ p :: l, x.start = false) :
    { p with start := true } :: markStarts cmp p l =
      ((groups (slotCmp cmp) (p :: l)).map flag).flatten :=
  flags_eq_groups (fun _ => rfl) (fun _ _ _ => rfl) l p h

variable (cmp) in
/-- **A run splits into the classes of the comparison.** -/
theorem splitRun_isSplit [TransCmp cmp] {run : List Slot}
    (hasc : (run.map Slot.id).Pairwise (· < ·)) (hdone : ∀ x ∈ run, x.done = false) :
    ∃ L, splitRun cmp run = L.flatten ∧ IsSplit cmp run L := by
  have hids : (run.map clearStart).map Slot.id = run.map Slot.id := by simp
  have hclear : ∀ x ∈ run.map clearStart, x.start = false ∧ x.done = false := by
    intro x hx
    obtain ⟨y, hy, rfl⟩ := List.mem_map.mp hx
    exact ⟨rfl, hdone y hy⟩
  unfold splitRun
  split
  · next hnil =>
    have hrun : run = [] := by simpa using hnil
    refine ⟨[], rfl, ?_⟩
    constructor <;> simp [hrun]
  · next first rest hcons =>
    rw [hcons] at hids hclear
    split
    · next hall =>
      -- All slots compare equal to the first one: the run is one class.
      have hfirst : ∀ x ∈ first :: rest, cmp first.id x.id = .eq := by
        intro x hx
        rcases List.mem_cons.mp hx with rfl | hx
        · exact ReflCmp.compare_self
        · simpa using List.all_eq_true.mp hall x hx
      refine ⟨[first :: rest].map flag, by simp [flag], isSplit_map_flag ?_ ?_ ?_ ?_ ?_ ?_⟩
      · simp
      · simpa using hclear
      · simpa [← hids] using hasc
      · rw [← hids]
        simp
      · intro g hg x hx y hy
        rw [List.mem_singleton.mp hg] at hx hy
        exact TransCmp.eq_trans (OrientedCmp.eq_symm (hfirst x hx)) (hfirst y hy)
      · exact List.pairwise_singleton _ _
    · have hsorted : SortedBy (slotOrder cmp) ((first :: rest).mergeSort fun x y =>
          (slotOrder cmp x y).isLE) := pairwise_mergeSort_cmp _
      have hperm := List.mergeSort_perm (first :: rest)
        fun x y => (slotOrder cmp x y).isLE
      split
      · next hnil =>
        rw [hnil] at hperm
        exact absurd hperm.symm.eq_nil (List.cons_ne_nil _ _)
      · next first' rest' hsort =>
        rw [hsort] at hsorted hperm
        have hclear' : ∀ x ∈ first' :: rest', x.start = false ∧ x.done = false :=
          fun x hx => hclear x (hperm.mem_iff.mp hx)
        have hcmp : SortedBy (slotCmp cmp) (first' :: rest') := hsorted.imp fun {x y} h => by
          cases hc : cmp x.id y.id <;> simp_all [slotCmp, slotOrder]
        have hflat := groups_flatten (slotCmp cmp) (first' :: rest')
        rw [markStarts_eq_groups rest' first' fun x hx => (hclear' x hx).1]
        refine ⟨_, rfl, isSplit_map_flag (groups_ne_nil _ _) ?_ ?_ ?_ ?_ ?_⟩
        · rwa [hflat]
        · -- Within a group the comparison is equal, so the order is that of the ids.
          intro g hg
          have hsub : g.Sublist (first' :: rest') := by
            rw [← hflat]
            exact List.sublist_flatten_of_mem hg
          have hnodup : (g.map Slot.id).Nodup := by
            refine (hsub.map Slot.id).nodup ((hperm.map Slot.id).nodup_iff.mpr ?_)
            rw [hids]
            exact hasc.imp fun h => h.ne
          have hle : g.Pairwise fun x y => x.id ≤ y.id := by
            refine (hsorted.sublist hsub).imp_of_mem ?_
            intro x y hx hy hxy
            have heq := groups_within (first' :: rest') g hg x hx y hy
            simp only [slotOrder, heq, Ordering.eq_then] at hxy
            exact Nat.isLE_compare.mp hxy
          refine ((List.pairwise_map.mpr hle).and hnodup).imp ?_
          rintro a b ⟨hab, hne⟩
          exact Nat.lt_of_le_of_ne hab hne
        · rw [hflat, ← hids]
          exact hperm.map Slot.id
        · exact groups_within _
        · exact (groups_across _ hcmp).imp fun h x hx y hy => by
            show slotCmp cmp x y ≠ .eq
            rw [h x hx y hy]
            decide

/-- The comparison of the sort by hash and id. -/
abbrev hashCmp (x y : Slot) : Ordering := (compare x.hash y.hash).then (compare x.id y.id)

instance hashCmp_transCmp : TransCmp hashCmp :=
  inferInstanceAs (TransCmp (compareLex (compareOn Slot.hash) (compareOn Slot.id)))

theorem hashCmp_isLE {x y : Slot} (h : (hashCmp x y).isLE = true) (hh : x.hash = y.hash) :
    x.id ≤ y.id := by
  have hself : compare y.hash y.hash = .eq := ReflCmp.compare_self
  rw [hashCmp, hh, hself, Ordering.eq_then] at h
  exact Nat.isLE_compare.mp h

/-- Slots of one hash, sorted by hash and id, are in ascending order of ids. -/
theorem ascending_of_hash {l : List Slot} (hnodup : (l.map Slot.id).Nodup)
    (hsorted : SortedBy hashCmp l) (hhash : ∀ x ∈ l, ∀ y ∈ l, x.hash = y.hash) :
    (l.map Slot.id).Pairwise (· < ·) := by
  have hle : l.Pairwise fun x y => x.id ≤ y.id := by
    refine hsorted.imp_of_mem ?_
    intro x y hx hy hxy
    exact hashCmp_isLE hxy (hhash x hx y hy)
  refine ((List.pairwise_map.mpr hle).and hnodup).imp ?_
  intro a b hab
  exact Nat.lt_of_le_of_ne hab.1 hab.2

/-- In a list sorted by hash and id, what follows the first hash run has other hashes. -/
theorem hash_ne_of_mem_drop {slot : Slot} {rest : List Slot}
    (hsorted : SortedBy hashCmp (slot :: rest)) :
    ∀ y ∈ (slot :: rest).dropWhile (fun x => x.hash == slot.hash), y.hash ≠ slot.hash := by
  intro y hy hhash
  obtain ⟨z, zs, hz⟩ : ∃ z zs,
      (slot :: rest).dropWhile (fun x => x.hash == slot.hash) = z :: zs := by
    cases hd : (slot :: rest).dropWhile (fun x => x.hash == slot.hash) with
    | nil => rw [hd] at hy; exact absurd hy List.not_mem_nil
    | cons z zs => exact ⟨z, zs, rfl⟩
  have hzne : z.hash ≠ slot.hash := by
    have := List.head?_dropWhile_not (fun x : Slot => x.hash == slot.hash) (slot :: rest)
    rw [hz] at this
    simpa using this
  have hsub : (z :: zs).Sublist (slot :: rest) := hz ▸ List.dropWhile_sublist _
  have hzle : (compare slot.hash z.hash).isLE = true := by
    have hle : (hashCmp slot z).isLE = true := by
      rcases List.mem_cons.mp (hsub.subset List.mem_cons_self) with rfl | hmem
      · exact absurd rfl hzne
      · exact (List.pairwise_cons.mp hsorted).1 z hmem
    cases hc : compare slot.hash z.hash <;> simp_all [hashCmp]
  rw [hz] at hy
  rcases List.mem_cons.mp hy with rfl | hy
  · exact hzne hhash
  · have hle := (List.pairwise_cons.mp (hsorted.sublist hsub)).1 y hy
    have hzy : (compare z.hash y.hash).isLE = true := by
      cases hc : compare z.hash y.hash <;> simp_all [hashCmp]
    rw [hhash] at hzy
    exact hzne (LawfulEqCmp.eq_of_compare (OrientedCmp.isLE_antisymm hzy hzle))

variable (cmp) in
theorem splitHashRuns_isSplit [TransCmp cmp] (n : ℕ) :
    ∀ l : List Slot, l.length ≤ n → SortedBy hashCmp l → (l.map Slot.id).Nodup →
      (∀ x ∈ l, x.done = false) →
      (∀ x ∈ l, ∀ y ∈ l, cmp x.id y.id = .eq → x.hash = y.hash) →
      ∃ L, splitHashRuns cmp l = L.flatten ∧ IsSplit cmp l L := by
  induction n with
  | zero =>
    intro l hn _ _ _ _
    rw [List.length_eq_zero_iff.mp (Nat.le_zero.mp hn), splitHashRuns]
    refine ⟨[], rfl, ?_⟩
    constructor <;> simp
  | succ n ih =>
    intro l hn hsorted hnodup hdone hhash
    cases l with
    | nil =>
      rw [splitHashRuns]
      refine ⟨[], rfl, ?_⟩
      constructor <;> simp
    | cons slot rest =>
      rw [splitHashRuns]
      let run := (slot :: rest).takeWhile fun x => x.hash == slot.hash
      let tail := (slot :: rest).dropWhile fun x => x.hash == slot.hash
      have hcat : run ++ tail = slot :: rest := List.takeWhile_append_dropWhile
      have hdrop : (slot :: rest).drop run.length = tail := by
        rw [← hcat, List.drop_left]
      have hrunSub : run.Sublist (slot :: rest) := List.takeWhile_sublist _
      have htailSub : tail.Sublist (slot :: rest) := List.dropWhile_sublist _
      have hrunHash : ∀ x ∈ run, x.hash = slot.hash := by
        intro x hx
        simpa using List.all_eq_true.mp (List.all_takeWhile (l := slot :: rest)) x hx
      have hlen : tail.length ≤ n := by
        have hpos : 0 < run.length := by
          show 0 < ((slot :: rest).takeWhile _).length
          simp
        have hsum : run.length + tail.length = (slot :: rest).length := by
          rw [← List.length_append, hcat]
        omega
      have hasc : (run.map Slot.id).Pairwise (· < ·) :=
        ascending_of_hash ((hrunSub.map Slot.id).nodup hnodup) (hsorted.sublist hrunSub)
          fun x hx y hy => (hrunHash x hx).trans (hrunHash y hy).symm
      obtain ⟨L₁, hL₁, hsplit₁⟩ :=
        splitRun_isSplit cmp hasc fun x hx => hdone x (hrunSub.subset hx)
      obtain ⟨L₂, hL₂, hsplit₂⟩ := ih tail hlen (hsorted.sublist htailSub)
        ((htailSub.map Slot.id).nodup hnodup) (fun x hx => hdone x (htailSub.subset hx))
        (fun x hx y hy => hhash x (htailSub.subset hx) y (htailSub.subset hy))
      refine ⟨L₁ ++ L₂, ?_, hcat ▸ hsplit₁.append hsplit₂ ?_⟩
      · show splitRun cmp run ++ splitHashRuns cmp ((slot :: rest).drop run.length) = _
        rw [hdrop, hL₁, hL₂, List.flatten_append]
      · intro x hx y hy hxy
        refine hash_ne_of_mem_drop hsorted y hy ?_
        rw [← hhash x (hrunSub.subset hx) y (htailSub.subset hy) hxy]
        exact hrunHash x hx

variable (cmp) in
/-- **A class splits into the classes of the comparison**, for every hash that is
equal on slots that compare equal. -/
theorem splitClass_isSplit [TransCmp cmp] {cls : List Slot}
    (hnodup : (cls.map Slot.id).Nodup) (hdone : ∀ x ∈ cls, x.done = false)
    (hhash : ∀ x ∈ cls, ∀ y ∈ cls, cmp x.id y.id = .eq → x.hash = y.hash) :
    ∃ L, splitClass cmp cls = L.flatten ∧ IsSplit cmp cls L := by
  have hperm := List.mergeSort_perm cls hashOrder
  have hmem : ∀ x ∈ cls.mergeSort hashOrder, x ∈ cls := fun x hx => hperm.mem_iff.mp hx
  have hsorted : SortedBy hashCmp (cls.mergeSort hashOrder) := pairwise_mergeSort_cmp cls
  obtain ⟨L, hL, hsplit⟩ := splitHashRuns_isSplit cmp _ _ le_rfl hsorted
    ((hperm.map Slot.id).nodup_iff.mpr hnodup) (fun x hx => hdone x (hmem x hx))
    (fun x hx y hy => hhash x (hmem x hx) y (hmem y hy))
  exact ⟨L, hL, { hsplit with perm := hsplit.perm.trans (hperm.map Slot.id) }⟩

end Split

end Qld.Passes.Icf
