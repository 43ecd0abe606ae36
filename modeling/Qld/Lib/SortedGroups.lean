import Mathlib.Data.List.SplitBy

/-!
# Groups of a sorted list

A list sorted by a comparison falls into groups of consecutive elements that compare equal.

* `groups cmp l` — the groups, by structural recursion;
* `groups_flatten`, `groups_ne_nil` — they are nonempty and concatenate to the list;
* `groups_within`, `groups_across` — in a sorted list, two elements are in one group exactly
  when they compare equal;
* `pairwise_mergeSort_cmp` — a merge sort by a comparison is sorted by it;
* `splitBy_same`, `splitBy_pairwise` — the chunks of a list by a key, when it is sorted by it;
* `dedupAdjacent` — the first of each group, for numbers.
-/

namespace Qld.Lib

open Std

variable {α : Type*} (cmp : α → α → Ordering)

/-- Consecutive elements that compare equal, grouped. -/
def groups : List α → List (List α)
  | [] => []
  | x :: l =>
    match l, groups l with
    | y :: _, g :: gs => if cmp x y = .eq then (x :: g) :: gs else [x] :: g :: gs
    | _, _ => [[x]]

/-- The first group of a nonempty list starts with its first element. -/
theorem groups_cons (x : α) (l : List α) : ∃ g gs, groups cmp (x :: l) = (x :: g) :: gs := by
  unfold groups
  split
  · split
    · exact ⟨_, _, rfl⟩
    · exact ⟨_, _, rfl⟩
  · exact ⟨_, _, rfl⟩

theorem groups_cons_cons (x y : α) (l : List α) :
    ∃ g gs, groups cmp (y :: l) = (y :: g) :: gs ∧
      groups cmp (x :: y :: l) =
        if cmp x y = .eq then (x :: y :: g) :: gs else [x] :: (y :: g) :: gs := by
  obtain ⟨g, gs, h⟩ := groups_cons cmp y l
  exact ⟨g, gs, h, by rw [groups.eq_def]; simp only [h]⟩

theorem groups_flatten (l : List α) : (groups cmp l).flatten = l := by
  induction l with
  | nil => rfl
  | cons x l ih =>
    cases l with
    | nil => rfl
    | cons y l =>
      obtain ⟨g, gs, hy, hx⟩ := groups_cons_cons cmp x y l
      rw [hy] at ih
      rw [hx]
      split
      · simpa using ih
      · simpa using ih

theorem groups_ne_nil (l : List α) : ∀ g ∈ groups cmp l, g ≠ [] := by
  induction l with
  | nil => simp [groups]
  | cons x l ih =>
    cases l with
    | nil => simp [groups]
    | cons y l =>
      obtain ⟨g, gs, hy, hx⟩ := groups_cons_cons cmp x y l
      rw [hy] at ih
      rw [hx]
      split
      · intro h hh
        rcases List.mem_cons.mp hh with rfl | hh
        · simp
        · exact ih h (List.mem_cons_of_mem _ hh)
      · intro h hh
        rcases List.mem_cons.mp hh with rfl | hh
        · simp
        · exact ih h hh

/-- The elements of a list sorted by a comparison. -/
abbrev SortedBy (cmp : α → α → Ordering) (l : List α) : Prop :=
  l.Pairwise fun x y => (cmp x y).isLE = true

variable {cmp} [TransCmp cmp]

/-- Members of one group of a sorted list compare equal. -/
theorem groups_within (l : List α) :
    ∀ g ∈ groups cmp l, ∀ x ∈ g, ∀ y ∈ g, cmp x y = .eq := by
  induction l with
  | nil => simp [groups]
  | cons x l ih =>
    cases l with
    | nil =>
      simp only [groups, List.mem_singleton]
      rintro g rfl a ha b hb
      rw [List.mem_singleton.mp ha, List.mem_singleton.mp hb]
      exact ReflCmp.compare_self
    | cons y l =>
      obtain ⟨g, gs, hy, hx⟩ := groups_cons_cons cmp x y l
      rw [hy] at ih
      rw [hx]
      split
      · next hxy =>
        -- The new element joins the first group through its first member.
        intro h hh a ha b hb
        rcases List.mem_cons.mp hh with rfl | hh
        · have hfirst : ∀ c ∈ x :: y :: g, cmp x c = .eq := by
            intro c hc
            rcases List.mem_cons.mp hc with rfl | hc
            · exact ReflCmp.compare_self
            · exact TransCmp.eq_trans hxy
                (ih (y :: g) List.mem_cons_self y List.mem_cons_self c hc)
          exact TransCmp.eq_trans (OrientedCmp.eq_symm (hfirst a ha)) (hfirst b hb)
        · exact ih h (List.mem_cons_of_mem _ hh) a ha b hb
      · intro h hh a ha b hb
        rcases List.mem_cons.mp hh with rfl | hh
        · rw [List.mem_singleton.mp ha, List.mem_singleton.mp hb]
          exact ReflCmp.compare_self
        · exact ih h hh a ha b hb

/-- Members of different groups of a sorted list compare unequal: the groups ascend. -/
theorem groups_across (l : List α) (hl : SortedBy cmp l) :
    (groups cmp l).Pairwise fun g h => ∀ x ∈ g, ∀ y ∈ h, cmp x y = .lt := by
  induction l with
  | nil => exact List.Pairwise.nil
  | cons x l ih =>
    cases l with
    | nil => exact List.pairwise_singleton _ _
    | cons y l =>
      obtain ⟨g, gs, hy, hx⟩ := groups_cons_cons cmp x y l
      have hflat : (y :: g) ++ gs.flatten = y :: l := by
        simpa [hy] using groups_flatten cmp (y :: l)
      have hrest := ih hl.of_cons
      rw [hy] at hrest
      obtain ⟨hhead, htail⟩ := List.pairwise_cons.mp hrest
      rw [hx]
      split
      · next hxy =>
        refine List.pairwise_cons.mpr ⟨?_, htail⟩
        intro h hh a ha b hb
        rcases List.mem_cons.mp ha with rfl | ha
        · exact TransCmp.lt_of_eq_of_lt hxy (hhead h hh y List.mem_cons_self b hb)
        · exact hhead h hh a ha b hb
      · next hxy =>
        have hlt : cmp x y = .lt := by
          have hle := (List.pairwise_cons.mp hl).1 y List.mem_cons_self
          cases hc : cmp x y with
          | lt => rfl
          | eq => exact absurd hc hxy
          | gt => rw [hc] at hle; exact absurd hle (by decide)
        refine List.pairwise_cons.mpr ⟨?_, hrest⟩
        intro h hh a ha b hb
        rw [List.mem_singleton.mp ha]
        have hb' : b ∈ y :: l := by
          rw [← hflat, ← List.flatten_cons]
          exact List.mem_flatten.mpr ⟨h, hh, hb⟩
        rcases List.mem_cons.mp hb' with rfl | hb'
        · exact hlt
        · exact TransCmp.lt_of_lt_of_isLE hlt
            ((List.pairwise_cons.mp hl.of_cons).1 b hb')

theorem pairwise_mergeSort_cmp (l : List α) :
    SortedBy cmp (l.mergeSort fun x y => (cmp x y).isLE) := by
  refine List.pairwise_mergeSort (fun a b c => TransCmp.isLE_trans) (fun a b => ?_) l
  rw [Bool.or_eq_true, @OrientedCmp.eq_swap _ cmp _ b a]
  cases cmp a b <;> decide

/-! ### Chunks by a key -/

section Chunks

variable {κ : Type*} [BEq κ] [LawfulBEq κ] {key : α → κ}

theorem splitBy_same {l g : List α} (hg : g ∈ l.splitBy fun a b => key a == key b) {a b : α}
    (ha : a ∈ g) (hb : b ∈ g) : key a = key b := by
  have hchain := List.isChain_of_mem_splitBy hg
  simp only [beq_iff_eq] at hchain
  have : IsTrans α fun a b => key a = key b := ⟨fun a b c => Eq.trans⟩
  have : Std.Symm fun a b : α => key a = key b := ⟨fun _ _ => Eq.symm⟩
  by_cases hab : a = b
  · rw [hab]
  · exact (List.isChain_iff_pairwise.mp hchain).forall ha hb hab

/-- **Chunks of sorted elements are apart.** -/
theorem splitBy_pairwise {r : κ → κ → Prop} [IsTrans κ r] {l : List α}
    (hl : l.Pairwise fun a b => key a = key b ∨ r (key a) (key b)) :
    (l.splitBy fun a b => key a == key b).Pairwise fun g h =>
      ∀ a ∈ g, ∀ b ∈ h, r (key a) (key b) := by
  have hle : (l.splitBy fun a b => key a == key b).Pairwise fun g h =>
      ∀ a ∈ g, ∀ b ∈ h, key a = key b ∨ r (key a) (key b) := by
    rw [← List.flatten_splitBy (fun a b => key a == key b) l, List.pairwise_flatten] at hl
    exact hl.2
  have hsame : ∀ g ∈ l.splitBy (fun a b => key a == key b), ∀ a ∈ g, ∀ b ∈ g, key a = key b :=
    fun g hg a ha b hb => splitBy_same hg ha hb
  have hchain := List.isChain_getLast_head_splitBy (fun a b : α => key a == key b) l
  generalize (l.splitBy fun a b => key a == key b) = chunks at hle hsame hchain
  -- Neighbours differ in key; the order carries this to all later chunks.
  induction chunks with
  | nil => exact List.Pairwise.nil
  | cons g rest ih =>
    rw [List.pairwise_cons] at hle
    have hrest := ih hle.2 (fun k hk => hsame k (List.mem_cons_of_mem _ hk)) hchain.tail
    refine List.pairwise_cons.mpr ⟨fun k hk a ha b hb => ?_, hrest⟩
    cases rest with
    | nil => exact absurd hk List.not_mem_nil
    | cons h rest =>
      obtain ⟨hg, hh, hne⟩ := hchain.rel
      have hlt : ∀ c ∈ h, r (key a) (key c) := by
        intro c hc
        refine (hle.1 h List.mem_cons_self a ha c hc).resolve_left fun heq => ?_
        rw [hsame g List.mem_cons_self _ ha _ (List.getLast_mem hg),
          hsame h (List.mem_cons_of_mem _ List.mem_cons_self) _ hc _ (List.head_mem hh)] at heq
        rw [heq, beq_self_eq_true] at hne
        exact absurd hne (by simp)
      rcases List.mem_cons.mp hk with rfl | hk
      · exact hlt b hb
      · have hhead := (List.pairwise_cons.mp hrest).1 k hk _ (List.head_mem hh) b hb
        exact Trans.trans (hlt _ (List.head_mem hh)) hhead

end Chunks

/-! ### Without repeats -/

/-- `Vec::dedup`: drops repeats next to each other. -/
def dedupAdjacent : List ℕ → List ℕ
  | a :: b :: l => if a = b then dedupAdjacent (b :: l) else a :: dedupAdjacent (b :: l)
  | l => l

theorem mem_dedupAdjacent {a : ℕ} (l : List ℕ) : a ∈ dedupAdjacent l ↔ a ∈ l := by
  fun_induction dedupAdjacent l with
  | case1 b l ih => rw [ih]; simp
  | case2 b c l hne ih => rw [List.mem_cons, ih]; simp
  | case3 l _ => rfl

theorem dedupAdjacent_length (l : List ℕ) : (dedupAdjacent l).length ≤ l.length := by
  fun_induction dedupAdjacent l with
  | case1 b l ih => exact ih.trans (Nat.le_succ _)
  | case2 b c l hne ih => exact Nat.succ_le_succ ih
  | case3 l _ => exact le_rfl

theorem dedupAdjacent_sorted {l : List ℕ} (h : l.Pairwise (· ≤ ·)) :
    (dedupAdjacent l).Pairwise (· < ·) := by
  fun_induction dedupAdjacent l with
  | case1 b l ih => exact ih (List.pairwise_cons.mp h).2
  | case2 b c l hne ih =>
    obtain ⟨hb, h⟩ := List.pairwise_cons.mp h
    refine List.pairwise_cons.mpr ⟨fun x hx => ?_, ih h⟩
    rw [mem_dedupAdjacent] at hx
    have hbc := hb c List.mem_cons_self
    rcases List.mem_cons.mp hx with rfl | hx
    · omega
    · have := (List.pairwise_cons.mp h).1 x hx
      omega
  | case3 l hl =>
    cases l with
    | nil => exact List.Pairwise.nil
    | cons b l =>
      cases l with
      | nil => exact List.pairwise_singleton _ _
      | cons c l => exact absurd rfl (hl b c l)

end Qld.Lib
