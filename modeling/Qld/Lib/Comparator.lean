import Mathlib.Data.List.Sort

/-!
# Comparators that are total on a set

* `isLE_of_isPrefix` — a prefix comes first;
* `isPrefix_of_between` — what lies between a prefix and a list has the prefix too.

A comparison function handed to a sort need not be an order everywhere: what counts are the elements
that are sorted.

* `TotalOn` — a total preorder on a set of elements;
* `TotalOn.thenBy` — one comparator refined by another, which only has to be one where
  the first leaves ties;
* `sortBy` — the stable sort; `sortBy_spec` — its result is the only arrangement that
  is in order, with ties as they came.
-/

namespace Qld.Lib

section

variable {α : Type} [Ord α] [Std.TransOrd α] [Std.LawfulEqOrd α]

omit [Std.LawfulEqOrd α] in
/-- **A prefix comes first.** -/
theorem isLE_of_isPrefix {x z : List α} (h : x <+: z) : (compare x z).isLE = true := by
  obtain ⟨t, rfl⟩ := h
  induction x with
  | nil => cases t <;> rfl
  | cons a x ih =>
    rw [List.cons_append, List.compare_cons_cons, Std.ReflOrd.compare_self]
    exact ih

/-- **What lies between a prefix and a list has the prefix too.** -/
theorem isPrefix_of_between {x y z : List α} (hxy : (compare x y).isLE = true)
    (hyz : (compare y z).isLE = true) (h : x <+: z) : x <+: y := by
  induction x generalizing y z with
  | nil => exact List.nil_prefix
  | cons a x ih =>
    obtain ⟨t, rfl⟩ := h
    cases y with
    | nil => exact nomatch hxy
    | cons b y =>
      rw [List.cons_append] at hyz
      rw [List.compare_cons_cons, Ordering.isLE_then_iff_or] at hxy hyz
      rcases hxy with hlt | ⟨heq, hxy⟩
      · rcases hyz with hlt' | ⟨heq', -⟩
        · exact absurd hlt' (Std.OrientedCmp.not_lt_of_lt hlt)
        · rw [Std.LawfulEqCmp.eq_of_compare heq'] at hlt
          exact absurd hlt (by rw [Std.ReflOrd.compare_self]; decide)
      · obtain rfl := Std.LawfulEqCmp.eq_of_compare heq
        rw [Std.ReflOrd.compare_self] at hyz
        have hyz := (hyz.resolve_left (by decide)).2
        exact List.cons_prefix_cons.mpr ⟨rfl, ih hxy hyz (List.prefix_append x t)⟩

end

variable {α β : Type} {cmp c₁ c₂ : α → α → Ordering} {s t : Set α}

/-- The comparator is a total preorder on the elements of a set. -/
structure TotalOn (cmp : α → α → Ordering) (s : Set α) : Prop where
  refl : ∀ a ∈ s, cmp a a = .eq
  swap : ∀ a ∈ s, ∀ b ∈ s, cmp a b = (cmp b a).swap
  trans : ∀ a ∈ s, ∀ b ∈ s, ∀ c ∈ s, (cmp a b).isLE → (cmp b c).isLE → (cmp a c).isLE

namespace TotalOn

theorem key [Ord β] [Std.TransOrd β] (f : α → β) (s : Set α) :
    TotalOn (fun a b => compare (f a) (f b)) s where
  refl _ _ := Std.ReflOrd.compare_self
  swap _ _ _ _ := Std.OrientedCmp.eq_swap
  trans _ _ _ _ _ _ h₁ h₂ := Std.TransCmp.isLE_trans h₁ h₂

theorem const_eq (s : Set α) : TotalOn (fun _ _ : α => .eq) s :=
  ⟨fun _ _ => rfl, fun _ _ _ _ => rfl, fun _ _ _ _ _ _ _ _ => rfl⟩

theorem comap {cmp : β → β → Ordering} {t : Set β} (h : TotalOn cmp t) (f : α → β)
    (hf : ∀ a ∈ s, f a ∈ t) : TotalOn (fun a b => cmp (f a) (f b)) s where
  refl a ha := h.refl _ (hf a ha)
  swap a ha b hb := h.swap _ (hf a ha) _ (hf b hb)
  trans a ha b hb c hc := h.trans _ (hf a ha) _ (hf b hb) _ (hf c hc)

theorem congr (h : TotalOn c₁ s) (heq : ∀ a ∈ s, ∀ b ∈ s, c₂ a b = c₁ a b) : TotalOn c₂ s where
  refl a ha := (heq a ha a ha).trans (h.refl a ha)
  swap a ha b hb := by rw [heq a ha b hb, heq b hb a ha, h.swap a ha b hb]
  trans a ha b hb c hc := by
    rw [heq a ha b hb, heq b hb c hc, heq a ha c hc]
    exact h.trans a ha b hb c hc

theorem flip (h : TotalOn cmp s) : TotalOn (fun a b => cmp b a) s where
  refl := h.refl
  swap a ha b hb := h.swap b hb a ha
  trans a ha b hb c hc h₁ h₂ := h.trans c hc b hb a ha h₂ h₁

section

variable {a b c : α} (h : TotalOn cmp s) (ha : a ∈ s) (hb : b ∈ s) (hc : c ∈ s)

include h ha hb hc

theorem lt_of_lt_of_isLE (hab : cmp a b = .lt) (hbc : (cmp b c).isLE) : cmp a c = .lt := by
  cases hac : cmp a c with
  | lt => rfl
  | eq | gt =>
    have hca : (cmp c a).isLE := by rw [h.swap c hc a ha, hac]; rfl
    have hba := h.trans b hb c hc a ha hbc hca
    rw [h.swap b hb a ha, hab] at hba
    cases hba

theorem lt_of_isLE_of_lt (hab : (cmp a b).isLE) (hbc : cmp b c = .lt) : cmp a c = .lt :=
  h.flip.lt_of_lt_of_isLE hc hb ha hbc hab

theorem eq_trans (hab : cmp a b = .eq) (hbc : cmp b c = .eq) : cmp a c = .eq := by
  have hle := h.trans a ha b hb c hc (by rw [hab]; rfl) (by rw [hbc]; rfl)
  have hge := h.trans c hc b hb a ha (by rw [h.swap c hc b hb, hbc]; rfl)
    (by rw [h.swap b hb a ha, hab]; rfl)
  rw [h.swap c hc a ha] at hge
  cases hac : cmp a c with
  | eq => rfl
  | lt =>
    rw [hac] at hge
    cases hge
  | gt =>
    rw [hac] at hle
    cases hle

end

/-- **One comparator refined by another.**  The second one has to be total only among
elements that the first one leaves tied. -/
theorem thenBy (h₁ : TotalOn c₁ s) (h₂ : ∀ a ∈ s, TotalOn c₂ {b | b ∈ s ∧ c₁ a b = .eq}) :
    TotalOn (fun a b => (c₁ a b).then (c₂ a b)) s where
  refl a ha := by
    show (c₁ a a).then (c₂ a a) = .eq
    rw [h₁.refl a ha]
    exact (h₂ a ha).refl a ⟨ha, h₁.refl a ha⟩
  swap a ha b hb := by
    show (c₁ a b).then (c₂ a b) = ((c₁ b a).then (c₂ b a)).swap
    rw [Ordering.swap_then, ← h₁.swap a ha b hb]
    cases hab : c₁ a b with
    | lt | gt => rfl
    | eq => exact (h₂ a ha).swap a ⟨ha, h₁.refl a ha⟩ b ⟨hb, hab⟩
  trans a ha b hb c hc := by
    simp only [Ordering.isLE_then_iff_or]
    rintro (hab | ⟨hab, hab'⟩) (hbc | ⟨hbc, hbc'⟩)
    · exact .inl (h₁.lt_of_lt_of_isLE ha hb hc hab (by rw [hbc]; rfl))
    · exact .inl (h₁.lt_of_lt_of_isLE ha hb hc hab (by rw [hbc]; rfl))
    · exact .inl (h₁.lt_of_isLE_of_lt ha hb hc (by rw [hab]; rfl) hbc)
    · have hac := h₁.eq_trans ha hb hc hab hbc
      exact .inr ⟨hac, (h₂ a ha).trans a ⟨ha, h₁.refl a ha⟩ b ⟨hb, hab⟩ c ⟨hc, hac⟩ hab' hbc'⟩

end TotalOn

/-! ### Stable sorting -/

/-- `sort_by`: stable. -/
def sortBy (cmp : α → α → Ordering) (l : List α) : List α :=
  l.mergeSort fun a b => (cmp a b).isLE

/-- One element goes before another: by the comparator, or by where it came from. -/
def Before (cmp : α → α → Ordering) (x y : α × ℕ) : Prop :=
  cmp x.1 y.1 = .lt ∨ cmp x.1 y.1 = .eq ∧ x.2 < y.2

variable {l : List α}

theorem zipIdxLE_eq (h : TotalOn cmp {a | a ∈ l}) {x y : α × ℕ} (hx : x.1 ∈ l) (hy : y.1 ∈ l) :
    List.zipIdxLE (fun a b => (cmp a b).isLE) x y =
      ((cmp x.1 y.1).then (compare x.2 y.2)).isLE := by
  rw [List.zipIdxLE, h.swap y.1 hy x.1 hx]
  cases cmp x.1 y.1 with
  | lt => rfl
  | gt => rfl
  | eq =>
    show decide (x.2 ≤ y.2) = (compare x.2 y.2).isLE
    rw [Bool.eq_iff_iff, decide_eq_true_iff, Nat.isLE_compare]

theorem totalOn_zipIdx (h : TotalOn cmp {a | a ∈ l}) :
    TotalOn (fun x y : α × ℕ => (cmp x.1 y.1).then (compare x.2 y.2)) {x | x.1 ∈ l} := by
  have hfirst : TotalOn (fun x y : α × ℕ => cmp x.1 y.1) {x | x.1 ∈ l} :=
    h.comap Prod.fst fun _ hx => hx
  exact hfirst.thenBy fun _ _ => TotalOn.key Prod.snd _

theorem mem_of_mem_zipIdx {x : α × ℕ} (hx : x ∈ l.zipIdx) : x.1 ∈ l := by
  have := List.mem_map_of_mem (f := Prod.fst) hx
  rwa [List.zipIdx_map_fst] at this

theorem pairwise_mergeSort_zipIdx (h : TotalOn cmp {a | a ∈ l}) :
    (l.zipIdx.mergeSort (List.zipIdxLE fun a b => (cmp a b).isLE)).Pairwise fun x y =>
      List.zipIdxLE (fun a b => (cmp a b).isLE) x y = true := by
  -- The comparator is an order on the elements of the list only.
  let le : {x // x ∈ l.zipIdx} → {x // x ∈ l.zipIdx} → Bool := fun x y =>
    List.zipIdxLE (fun a b => (cmp a b).isLE) x.1 y.1
  have htotal := totalOn_zipIdx h
  have heq : ∀ x y : {x // x ∈ l.zipIdx},
      le x y = ((cmp x.1.1 y.1.1).then (compare x.1.2 y.1.2)).isLE := fun x y =>
    zipIdxLE_eq h (mem_of_mem_zipIdx x.2) (mem_of_mem_zipIdx y.2)
  have hsorted : (l.zipIdx.attach.mergeSort le).Pairwise fun x y => le x y = true := by
    apply List.pairwise_mergeSort
    · intro x y z hxy hyz
      rw [heq] at hxy hyz ⊢
      exact htotal.trans x.1 (mem_of_mem_zipIdx x.2) y.1 (mem_of_mem_zipIdx y.2) z.1
        (mem_of_mem_zipIdx z.2) hxy hyz
    · intro x y
      rw [heq, heq, htotal.swap y.1 (mem_of_mem_zipIdx y.2) x.1 (mem_of_mem_zipIdx x.2)]
      cases (cmp x.1.1 y.1.1).then (compare x.1.2 y.1.2) <;> rfl
  have hmap := List.map_mergeSort (r := le)
    (s := List.zipIdxLE fun a b => (cmp a b).isLE) (f := Subtype.val) (l := l.zipIdx.attach)
    fun _ _ _ _ => rfl
  rw [List.attach_map_subtype_val] at hmap
  rw [← hmap, List.pairwise_map]
  exact hsorted

/-- **The stable sort.**  Its result is the only arrangement of the elements in the
comparator's order, with ties as they came. -/
theorem sortBy_spec (h : TotalOn cmp {a | a ∈ l}) :
    ∃ sorted : List (α × ℕ), sortBy cmp l = sorted.map Prod.fst ∧ sorted.Perm l.zipIdx ∧
      sorted.Pairwise (Before cmp) ∧
      ∀ other : List (α × ℕ), other.Perm l.zipIdx → other.Pairwise (Before cmp) →
        other = sorted := by
  have hperm := List.mergeSort_perm l.zipIdx (List.zipIdxLE fun a b => (cmp a b).isLE)
  have hbefore : (l.zipIdx.mergeSort (List.zipIdxLE fun a b => (cmp a b).isLE)).Pairwise
      (Before cmp) := by
    have hnodup : (l.zipIdx.map Prod.snd).Nodup := by
      rw [List.zipIdx_map_snd]
      exact List.nodup_range'
    have hne := List.pairwise_map.mp ((hperm.map Prod.snd).nodup_iff.mpr hnodup)
    refine ((pairwise_mergeSort_zipIdx h).and hne).imp_of_mem ?_
    rintro x y hx hy ⟨hle, hxy⟩
    have hx := mem_of_mem_zipIdx (hperm.mem_iff.mp hx)
    have hy := mem_of_mem_zipIdx (hperm.mem_iff.mp hy)
    rw [zipIdxLE_eq h hx hy, Ordering.isLE_then_iff_or] at hle
    rcases hle with hlt | ⟨heq, hle⟩
    · exact .inl hlt
    · exact .inr ⟨heq, Nat.lt_of_le_of_ne (Nat.isLE_compare.mp hle) hxy⟩
  refine ⟨_, List.mergeSort_zipIdx.symm, hperm, hbefore, ?_⟩
  intro other hother hpairwise
  refine (hother.trans hperm.symm).eq_of_pairwise ?_ hpairwise hbefore
  intro x y hx hy hxy hyx
  have hx := mem_of_mem_zipIdx (hother.mem_iff.mp hx)
  have hy := mem_of_mem_zipIdx (hperm.mem_iff.mp hy)
  rw [Before, h.swap y.1 hy x.1 hx] at hyx
  rcases hxy with hlt | ⟨heq, hlt⟩
  · rw [hlt] at hyx
    rcases hyx with hgt | ⟨hgt, -⟩ <;> cases hgt
  · rw [heq] at hyx
    rcases hyx with hgt | ⟨-, hlt'⟩
    · cases hgt
    · exact absurd hlt (Nat.lt_asymm hlt')

end Qld.Lib
