import Mathlib.Data.List.Nodup
import Mathlib.Data.List.Range

/-!
# Numbering by first occurrence

A sequence of keys is interned into a list of known ones: a key that is new is appended at its
first occurrence, and the number of a key is its index in the extended list.

* `fresh` — the new keys of a sequence, in the order of their first occurrences;
* `newAt` — whether the key at an index is the first occurrence of a new one;
* `fresh_eq_filter`, `idxOf_append_fresh` — the new keys are those at the indices
  that are `newAt`, and the number of a new key is the number of known keys plus the number of
  such indices before its first occurrence.
-/

namespace Qld.Lib

variable {α : Type*} [DecidableEq α]

/-- The keys of a sequence that are not known, in order of first occurrence. -/
def fresh (known : List α) : List α → List α
  | [] => []
  | x :: xs => if x ∈ known then fresh known xs else x :: fresh (known ++ [x]) xs

variable {x y : α}

theorem mem_fresh (xs : List α) : ∀ known : List α,
    x ∈ fresh known xs ↔ x ∈ xs ∧ x ∉ known := by
  induction xs with
  | nil => intro known; simp [fresh]
  | cons y xs ih =>
    intro known
    rw [fresh]
    split
    · next hy =>
      rw [ih, List.mem_cons]
      constructor
      · intro h
        exact ⟨.inr h.1, h.2⟩
      · intro h
        refine ⟨h.1.resolve_left fun hxy => h.2 (hxy ▸ hy), h.2⟩
    · next hy =>
      rw [List.mem_cons, ih, List.mem_cons, List.mem_append, List.mem_singleton]
      by_cases hxy : x = y
      · simp [hxy, hy]
      · simp [hxy]

theorem nodup_fresh (xs : List α) : ∀ known : List α, (fresh known xs).Nodup := by
  induction xs with
  | nil => intro known; exact List.nodup_nil
  | cons y xs ih =>
    intro known
    rw [fresh]
    split
    · exact ih known
    · refine List.nodup_cons.mpr ⟨?_, ih _⟩
      rw [mem_fresh]
      simp

variable {known xs l : List α}

/-- A list extended by its new keys has no duplicates. -/
theorem nodup_append_fresh (h : known.Nodup) (xs : List α) :
    (known ++ fresh known xs).Nodup := by
  refine h.append (nodup_fresh xs known) ?_
  intro x hx hf
  exact ((mem_fresh xs known).mp hf).2 hx

theorem fresh_append (xs ys : List α) : ∀ known : List α,
    fresh known (xs ++ ys) = fresh known xs ++ fresh (known ++ fresh known xs) ys := by
  induction xs with
  | nil => intro known; simp [fresh]
  | cons x xs ih =>
    intro known
    rw [List.cons_append, fresh, fresh]
    split
    · exact ih known
    · rw [ih, List.cons_append, List.append_assoc, List.singleton_append]

/-- Known keys of a sequence may be dropped before it is interned. -/
theorem fresh_filter_map {β : Type*} (keep : β → Bool) (key : β → α) (ps : List β) :
    ∀ {known : List α}, (∀ p ∈ ps, keep p = false → key p ∈ known) →
      fresh known ((ps.filter keep).map key) = fresh known (ps.map key) := by
  induction ps with
  | nil => intro known _; rfl
  | cons p ps ih =>
    intro known hdrop
    have hrest := fun q hq => hdrop q (List.mem_cons_of_mem p hq)
    rw [List.filter_cons, List.map_cons]
    cases hk : keep p with
    | false =>
      rw [if_neg Bool.false_ne_true, ih hrest, fresh,
        if_pos (hdrop p List.mem_cons_self hk)]
    | true =>
      rw [if_pos rfl, List.map_cons, fresh, fresh]
      split
      · exact ih hrest
      · rw [ih fun q hq hkq => List.mem_append_left _ (hrest q hq hkq)]

/-! ### First occurrences by index -/

/-- Whether the key at index `g` is new and occurs there for the first time. -/
def newAt (known xs : List α) (g : ℕ) : Bool :=
  xs[g]?.any fun x => decide (x ∉ known ∧ x ∉ xs.take g)

variable {g : ℕ}

theorem idxOf_le_of_getElem? (hx : xs[g]? = some x) :
    xs.idxOf x ≤ g := by
  obtain ⟨hg, hget⟩ := List.getElem?_eq_some_iff.mp hx
  by_contra hlt
  have := List.not_of_lt_findIdx (Nat.lt_of_not_ge hlt)
  rw [hget] at this
  simp at this

theorem newAt_iff :
    newAt known xs g = true ↔ ∃ x, xs[g]? = some x ∧ x ∉ known ∧ xs.idxOf x = g := by
  unfold newAt
  cases hx : xs[g]? with
  | none => simp
  | some x =>
    rw [Option.any_some, decide_eq_true_eq]
    have hmem : x ∈ xs := List.mem_of_getElem? hx
    have hle : xs.idxOf x ≤ g := idxOf_le_of_getElem? hx
    have htake : x ∉ xs.take g ↔ xs.idxOf x = g := by
      constructor
      · intro hnot
        by_contra hne
        refine hnot (List.mem_take_iff_idxOf_lt hmem |>.mpr ?_)
        omega
      · intro heq hin
        have := (List.mem_take_iff_idxOf_lt hmem).mp hin
        omega
    rw [htake]
    constructor
    · intro h
      exact ⟨x, rfl, h⟩
    · rintro ⟨y, hy, h⟩
      rw [Option.some.injEq] at hy
      exact hy ▸ h

theorem newAt_lt (h : newAt known xs g = true) : g < xs.length := by
  obtain ⟨x, hx, -⟩ := newAt_iff.mp h
  exact (List.getElem?_eq_some_iff.mp hx).1

theorem newAt_append (known xs ys : List α) (hg : g < xs.length) :
    newAt known (xs ++ ys) g = newAt known xs g := by
  unfold newAt
  rw [List.getElem?_append_left hg, List.take_append_of_le_length (Nat.le_of_lt hg)]

/-- **The new keys are the keys at the indices that are new.** -/
theorem fresh_eq_filter (known : List α) (xs : List α) :
    (fresh known xs).map some = ((List.range xs.length).filter (newAt known xs)).map (xs[·]?) := by
  induction xs using List.reverseRecOn with
  | nil => rfl
  | append_singleton xs x ih =>
    have hold : (List.range xs.length).filter (newAt known (xs ++ [x])) =
        (List.range xs.length).filter (newAt known xs) := by
      refine List.filter_congr fun g hg => newAt_append known xs [x] (List.mem_range.mp hg)
    have hget : ((List.range xs.length).filter (newAt known xs)).map ((xs ++ [x])[·]?) =
        ((List.range xs.length).filter (newAt known xs)).map (xs[·]?) := by
      refine List.map_congr_left fun g hg => ?_
      exact List.getElem?_append_left (List.mem_range.mp (List.mem_of_mem_filter hg))
    have hlast : newAt known (xs ++ [x]) xs.length = decide (x ∉ known ∧ x ∉ xs) := by
      simp [newAt]
    rw [List.length_append, List.length_singleton, List.range_succ, List.filter_append, hold,
      List.map_append, hget, ← ih, fresh_append, List.map_append, List.filter_singleton, hlast]
    congr 1
    rw [fresh, fresh, fresh]
    by_cases hx : x ∈ known ++ fresh known xs
    · have : ¬(x ∉ known ∧ x ∉ xs) := by
        rw [List.mem_append, mem_fresh] at hx
        tauto
      rw [if_pos hx, decide_eq_false this]
      rfl
    · have : x ∉ known ∧ x ∉ xs := by
        rw [List.mem_append, mem_fresh] at hx
        tauto
      rw [if_neg hx, decide_eq_true this]
      simp

/-- **The new keys are in the order of their first occurrences.** -/
theorem fresh_pairwise_idxOf (known xs : List α) :
    (fresh known xs).Pairwise fun x y => xs.idxOf x < xs.idxOf y := by
  have hfilter := (@List.pairwise_lt_range xs.length).filter (newAt known xs)
  have hmap : ((fresh known xs).map some).Pairwise fun x y =>
      ∀ a b, x = some a → y = some b → xs.idxOf a < xs.idxOf b := by
    rw [fresh_eq_filter, List.pairwise_map]
    refine hfilter.imp_of_mem ?_
    intro g g' hg hg' hlt a b ha hb
    obtain ⟨x, hx, -, hidx⟩ := newAt_iff.mp (List.mem_filter.mp hg).2
    obtain ⟨y, hy, -, hidy⟩ := newAt_iff.mp (List.mem_filter.mp hg').2
    rw [hx, Option.some.injEq] at ha
    rw [hy, Option.some.injEq] at hb
    rw [← ha, ← hb, hidx, hidy]
    exact hlt
  exact (List.pairwise_map.mp hmap).imp fun h => h _ _ rfl rfl

/-- How many new keys there are before index `g`. -/
def newBefore (known xs : List α) (g : ℕ) : ℕ := (List.range g).countP (newAt known xs)

theorem newBefore_succ (known xs : List α) (g : ℕ) :
    newBefore known xs (g + 1) = newBefore known xs g + if newAt known xs g then 1 else 0 := by
  rw [newBefore, List.range_succ, List.countP_append, List.countP_singleton]
  rfl

theorem newBefore_length (known xs : List α) :
    newBefore known xs xs.length = (fresh known xs).length := by
  have h := congrArg List.length (fresh_eq_filter known xs)
  rw [List.length_map, List.length_map] at h
  rw [h, newBefore, List.countP_eq_length_filter]

theorem newBefore_of_le (known xs : List α) (hg : xs.length ≤ g) :
    newBefore known xs g = (fresh known xs).length := by
  induction g with
  | zero => rw [← newBefore_length, Nat.le_zero.mp hg]
  | succ g ih =>
    by_cases heq : xs.length = g + 1
    · rw [← heq, newBefore_length]
    · have hnot : ¬ newAt known xs g = true := fun h => by
        have := newAt_lt h
        omega
      rw [newBefore_succ, ih (by omega), if_neg hnot, Nat.add_zero]

/-- The key at a new index has, among the new keys, the number of new indices before. -/
theorem getElem?_fresh_newBefore (h : newAt known xs g = true) :
    (fresh known xs)[newBefore known xs g]? = xs[g]? := by
  have hg := newAt_lt h
  have hmap := congrArg (·[newBefore known xs g]?) (fresh_eq_filter known xs)
  simp only [List.getElem?_map] at hmap
  have hsplit : List.range xs.length =
      List.range g ++ g :: (List.range' (g + 1) (xs.length - (g + 1))) := by
    have happend := @List.range'_append_1 0 g (xs.length - (g + 1) + 1)
    rw [Nat.zero_add, List.range'_succ] at happend
    rw [List.range_eq_range', List.range_eq_range', happend]
    congr 1
    omega
  have hat : ((List.range xs.length).filter (newAt known xs))[newBefore known xs g]? = some g := by
    rw [hsplit, List.filter_append, newBefore, List.countP_eq_length_filter,
      List.getElem?_append_right le_rfl, Nat.sub_self, List.filter_cons, if_pos h]
    rfl
  rw [hat] at hmap
  cases hf : (fresh known xs)[newBefore known xs g]? with
  | none => rw [hf] at hmap; simp at hmap
  | some y =>
    rw [hf, Option.map_some, Option.map_some, Option.some.injEq] at hmap
    exact hmap

/-- **The number of a new key.**  It is the number of known keys plus the number of
new keys that occur before its first occurrence. -/
theorem idxOf_append_fresh (hx : x ∈ xs) (hnew : x ∉ known) :
    (known ++ fresh known xs).idxOf x = known.length + newBefore known xs (xs.idxOf x) := by
  have hlt := List.idxOf_lt_length_of_mem hx
  have hat : newAt known xs (xs.idxOf x) = true :=
    newAt_iff.mpr ⟨x, by rw [List.getElem?_eq_getElem hlt, List.getElem_idxOf], hnew, rfl⟩
  have hget := getElem?_fresh_newBefore hat
  rw [List.getElem?_eq_getElem hlt, List.getElem_idxOf] at hget
  obtain ⟨hlt', hget'⟩ := List.getElem?_eq_some_iff.mp hget
  rw [List.idxOf_append_of_notMem hnew]
  congr 1
  conv_lhs => rw [← hget']
  exact (nodup_fresh xs known).idxOf_getElem _ hlt'

theorem eq_take_idxOf_append (hy : y ∈ l) :
    l = l.take (l.idxOf y) ++ y :: l.drop (l.idxOf y + 1) := by
  have hlt := List.idxOf_lt_length_of_mem hy
  conv_lhs => rw [← List.take_append_drop (l.idxOf y) l, List.drop_eq_getElem_cons hlt,
    List.getElem_idxOf]

/-- In a list sorted by an asymmetric relation, what stands before a key is what precedes it. -/
theorem mem_take_idxOf_iff {r : α → α → Prop} (hasymm : ∀ x y, r x y → ¬ r y x) (h : l.Pairwise r)
    (hy : y ∈ l) :
    x ∈ l.take (l.idxOf y) ↔ x ∈ l ∧ r x y := by
  have hsplit := eq_take_idxOf_append hy
  rw [hsplit, List.pairwise_append, List.pairwise_cons] at h
  obtain ⟨-, ⟨hafter, -⟩, hbefore⟩ := h
  constructor
  · intro hx
    exact ⟨List.mem_of_mem_take hx, hbefore x hx y List.mem_cons_self⟩
  · intro ⟨hx, hr⟩
    rw [hsplit, List.mem_append, List.mem_cons] at hx
    rcases hx with hx | rfl | hx
    · exact hx
    · exact absurd hr (hasymm _ _ hr)
    · exact absurd hr (hasymm _ _ (hafter x hx))

/-- A second relation that the list is sorted by holds wherever the first does. -/
theorem pairwise_of_pairwise {r q : α → α → Prop} (hasymm : ∀ x y, r x y → ¬ r y x)
    (hr : l.Pairwise r) (hq : l.Pairwise q) (hx : x ∈ l) (hy : y ∈ l) (h : r x y) :
    q x y := by
  have hmem := (mem_take_idxOf_iff hasymm hr hy).mpr ⟨hx, h⟩
  rw [eq_take_idxOf_append hy, List.pairwise_append] at hq
  exact hq.2.2 x hmem y List.mem_cons_self

end Qld.Lib
