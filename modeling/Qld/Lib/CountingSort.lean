import Mathlib.Algebra.BigOperators.Group.List.Basic
import Mathlib.Data.List.Count
import Qld.Lib.Cells

/-!
# Counting sort

Sorting items into buckets in two passes: count the items of each bucket, sum the counts to
the starts of the buckets, then write every item at the cursor of its bucket and advance it.

* `countInto`, `accumulate`, `bucketStarts` — the counts, summed to starts;
  `bucketStarts_eq` says that a start is the number of items of the buckets before it;
* `place` — the second pass; `place_spec` — bucket `k` holds the items with key
  `k`, in the order in which they were placed, and nothing else is written.
-/

namespace Qld.Lib

variable {α : Type*}

/-! ### Counts and starts -/

/-- Counts keys, each in the entry after its own. -/
def countInto (counts : Cells ℕ) (keys : List ℕ) : Cells ℕ :=
  keys.foldl (fun counts k => counts.set (k + 1) (counts.get (k + 1) + 1)) counts

/-- Adds to each entry the one before it, from left to right. -/
def accumulate (n : ℕ) (counts : Cells ℕ) : Cells ℕ :=
  (List.range n).foldl
    (fun counts k => counts.set (k + 1) (counts.get (k + 1) + counts.get k)) counts

/-- The starts of `n` buckets: counts, summed. -/
def bucketStarts (n : ℕ) (keys : List ℕ) : Cells ℕ :=
  accumulate n (countInto (Cells.const 0) keys)

theorem countInto_zero (keys : List ℕ) : ∀ counts : Cells ℕ,
    (countInto counts keys).get 0 = counts.get 0 := by
  induction keys with
  | nil => intro counts; rfl
  | cons k keys ih =>
    intro counts
    rw [countInto, List.foldl_cons]
    exact (ih _).trans (Cells.get_set_of_ne _ (Nat.succ_ne_zero k).symm _)

theorem countInto_succ (keys : List ℕ) : ∀ (counts : Cells ℕ) (k : ℕ),
    (countInto counts keys).get (k + 1) = counts.get (k + 1) + keys.count k := by
  induction keys with
  | nil => intro counts k; rfl
  | cons j keys ih =>
    intro counts k
    rw [countInto, List.foldl_cons]
    refine (ih _ k).trans ?_
    rw [List.count_cons]
    by_cases hjk : j = k
    · subst hjk
      rw [Cells.get_set_self, beq_self_eq_true, if_pos rfl]
      omega
    · rw [Cells.get_set_of_ne _ (by omega), beq_false_of_ne hjk]
      simp

section

variable (n : ℕ) (counts : Cells ℕ)

include n counts

theorem accumulate_succ :
    accumulate (n + 1) counts = (accumulate n counts).set (n + 1)
      ((accumulate n counts).get (n + 1) + (accumulate n counts).get n) := by
  rw [accumulate, List.range_succ, List.foldl_append]
  rfl

theorem accumulate_of_lt : ∀ k, n < k →
    (accumulate n counts).get k = counts.get k := by
  induction n with
  | zero => intro k _; rfl
  | succ n ih =>
    intro k hk
    rw [accumulate_succ, Cells.get_set_of_ne _ (by omega), ih k (by omega)]

/-- Up to the end, each entry is the sum of its own count and the entry before it. -/
theorem accumulate_step : ∀ k, k < n →
    (accumulate n counts).get (k + 1) = (accumulate n counts).get k + counts.get (k + 1) := by
  induction n with
  | zero => intro k hk; exact absurd hk (Nat.not_lt_zero k)
  | succ n ih =>
    intro k hk
    rw [accumulate_succ]
    by_cases hkn : k = n
    · subst hkn
      rw [Cells.get_set_self, Cells.get_set_of_ne _ (by omega),
        accumulate_of_lt k counts (k + 1) (by omega)]
      omega
    · rw [Cells.get_set_of_ne _ (by omega), Cells.get_set_of_ne _ (by omega)]
      exact ih k (by omega)

theorem accumulate_zero :
    (accumulate n counts).get 0 = counts.get 0 := by
  induction n with
  | zero => rfl
  | succ n ih => rw [accumulate_succ, Cells.get_set_of_ne _ (by omega), ih]

end

/-- **The start of a bucket is the number of items of the buckets before it.** -/
theorem bucketStarts_eq (n : ℕ) (keys : List ℕ) : ∀ k, k ≤ n →
    (bucketStarts n keys).get k = keys.countP (fun j => decide (j < k)) := by
  intro k
  induction k with
  | zero =>
    intro _
    rw [bucketStarts, accumulate_zero, countInto_zero, Cells.get_const]
    symm
    rw [List.countP_eq_zero]
    intro j _
    simp
  | succ k ih =>
    intro hk
    have hsplit : keys.countP (fun j => decide (j < k + 1)) =
        keys.countP (fun j => decide (j < k)) + keys.count k := by
      clear ih hk
      induction keys with
      | nil => rfl
      | cons j keys ih =>
        rw [List.countP_cons, List.countP_cons, List.count_cons, ih]
        rcases Nat.lt_trichotomy j k with h | h | h
        · simp [h, Nat.lt_succ_of_lt h, Nat.ne_of_lt h]
          omega
        · simp [h]
          omega
        · simp [Nat.not_lt_of_gt h, Nat.ne_of_gt h, show ¬ j < k + 1 by omega]
    rw [hsplit, ← ih (by omega), bucketStarts, accumulate_step n _ k (by omega), countInto_succ]
    simp

theorem bucketStarts_succ (n : ℕ) (keys : List ℕ) {k : ℕ} (hk : k < n) :
    (bucketStarts n keys).get (k + 1) = (bucketStarts n keys).get k + keys.count k := by
  rw [bucketStarts, accumulate_step n _ k hk, countInto_succ]
  simp

theorem bucketStarts_mono (n : ℕ) (keys : List ℕ) {j k : ℕ} (hjk : j ≤ k) (hk : k ≤ n) :
    (bucketStarts n keys).get j ≤ (bucketStarts n keys).get k := by
  rw [bucketStarts_eq n keys j (by omega), bucketStarts_eq n keys k hk]
  exact List.countP_mono_left fun i _ hi => by
    simp only [decide_eq_true_eq] at hi ⊢
    omega

/-! ### Placing -/

/-- Writes every item at the cursor of its bucket and advances the cursor. -/
def place (key : α → ℕ) : List α → Cells ℕ → Cells α → Cells α
  | [], _, entries => entries
  | x :: items, cursor, entries =>
    place key items (cursor.set (key x) (cursor.get (key x) + 1))
      (entries.set (cursor.get (key x)) x)

/-- A position of bucket `k` that is still to be written. -/
def Pending (key : α → ℕ) (items : List α) (cursor : Cells ℕ) (k p : ℕ) : Prop :=
  cursor.get k ≤ p ∧ p < cursor.get k + (items.map key).count k

/-- No position is to be written for two buckets. -/
def Apart (key : α → ℕ) (items : List α) (cursor : Cells ℕ) : Prop :=
  ∀ j k p, Pending key items cursor j p → Pending key items cursor k p → j = k

section Place

variable {key : α → ℕ} {x : α} {items : List α} {cursor : Cells ℕ}

theorem Pending.of_advance {k p : ℕ}
    (h : Pending key items (cursor.set (key x) (cursor.get (key x) + 1)) k p) :
    Pending key (x :: items) cursor k p ∧ (k = key x → p ≠ cursor.get k) := by
  unfold Pending at h ⊢
  rw [List.map_cons, List.count_cons]
  by_cases hk : k = key x
  · subst hk
    simp only [Cells.get_set_self, beq_self_eq_true, if_true] at h ⊢
    omega
  · rw [Cells.get_set_of_ne _ hk] at h
    exact ⟨⟨h.1, by omega⟩, fun hx => absurd hx hk⟩

theorem Apart.advance (h : Apart key (x :: items) cursor) :
    Apart key items (cursor.set (key x) (cursor.get (key x) + 1)) := by
  intro j k p hj hk
  exact h j k p hj.of_advance.1 hk.of_advance.1

theorem pending_first : Pending key (x :: items) cursor (key x) (cursor.get (key x)) := by
  unfold Pending
  rw [List.map_cons, List.count_cons, beq_self_eq_true, if_pos rfl]
  omega

/-- Positions that no bucket waits for keep their contents. -/
theorem place_of_not_pending (key : α → ℕ) (items : List α) :
    ∀ (cursor : Cells ℕ) (entries : Cells α) (p : ℕ), (∀ k, ¬ Pending key items cursor k p) →
      (place key items cursor entries).get p = entries.get p := by
  induction items with
  | nil => intro _ _ _ _; rfl
  | cons x items ih =>
    intro cursor entries p hp
    rw [place, ih _ _ p fun k hk => hp k hk.of_advance.1, Cells.get_set_of_ne]
    intro hpx
    exact hp (key x) (hpx ▸ pending_first)

/-- **Every bucket holds its items in the order in which they were placed.** -/
theorem place_spec (key : α → ℕ) (items : List α) :
    ∀ (cursor : Cells ℕ) (entries : Cells α), Apart key items cursor → ∀ (k i : ℕ) (y : α),
      (items.filter fun x => key x == k)[i]? = some y →
      (place key items cursor entries).get (cursor.get k + i) = y := by
  induction items with
  | nil => intro _ _ _ k i y hy; simp at hy
  | cons x items ih =>
    intro cursor entries hapart k i y hy
    rw [place]
    by_cases hk : key x = k
    · rw [List.filter_cons, hk, beq_self_eq_true, if_pos rfl] at hy
      cases i with
      | zero =>
        -- The first item of bucket `k`: nothing writes its place again.
        rw [List.getElem?_cons_zero, Option.some.injEq] at hy
        rw [place_of_not_pending, Nat.add_zero, ← hk, Cells.get_set_self, hy]
        intro j hj
        have hjk := hapart j (key x) (cursor.get (key x))
          (by rw [← Nat.add_zero (cursor.get (key x)), hk]; exact hj.of_advance.1) pending_first
        exact hj.of_advance.2 hjk (by rw [hjk, hk, Nat.add_zero])
      | succ i =>
        rw [List.getElem?_cons_succ] at hy
        have := ih _ (entries.set (cursor.get (key x)) x) hapart.advance k i y hy
        rw [hk, Cells.get_set_self] at this
        rw [← this, hk]
        congr 1
        omega
    · rw [List.filter_cons, beq_false_of_ne hk] at hy
      have := ih _ (entries.set (cursor.get (key x)) x) hapart.advance k i y
        (by simpa using hy)
      rwa [Cells.get_set_of_ne _ (Ne.symm hk)] at this

end Place

theorem apart_bucketStarts (n : ℕ) (key : α → ℕ) (items : List α) (hn : ∀ x ∈ items, key x < n) :
    Apart key items (bucketStarts n (items.map key)) := by
  have hlt : ∀ k p, Pending key items (bucketStarts n (items.map key)) k p → k < n := by
    intro k p hp
    by_contra hk
    have hzero : (items.map key).count k = 0 := by
      rw [List.count_eq_zero]
      intro hmem
      obtain ⟨x, hx, rfl⟩ := List.mem_map.mp hmem
      exact hk (hn x hx)
    unfold Pending at hp
    omega
  -- The buckets of smaller keys end where the bucket of a larger one starts, or before.
  have hle : ∀ j k p, j < k → Pending key items (bucketStarts n (items.map key)) j p →
      ¬ Pending key items (bucketStarts n (items.map key)) k p := by
    intro j k p hjk hj hk
    have hkn := hlt k p hk
    have hnext := bucketStarts_succ n (items.map key) (show j < n by omega)
    have hmono := bucketStarts_mono n (items.map key) (show j + 1 ≤ k by omega) (by omega)
    unfold Pending at hj hk
    omega
  intro j k p hj hk
  rcases Nat.lt_trichotomy j k with h | h | h
  · exact absurd hk (hle j k p h hj)
  · exact h
  · exact absurd hj (hle k j p h hk)

/-- Bucket `k` after a counting sort into `n` buckets. -/
def bucketOf (n : ℕ) (key : α → ℕ) (items : List α) (entries : Cells α) (k : ℕ) : List α :=
  let starts := bucketStarts n (items.map key)
  (List.range' (starts.get k) (starts.get (k + 1) - starts.get k)).map
    (place key items starts entries).get

/-- **A counting sort is stable.** -/
theorem bucketOf_eq_filter (n : ℕ) (key : α → ℕ) (items : List α) (entries : Cells α)
    (hn : ∀ x ∈ items, key x < n) {k : ℕ} (hk : k < n) :
    bucketOf n key items entries k = items.filter fun x => key x == k := by
  have hcount : (items.map key).count k = (items.filter fun x => key x == k).length := by
    rw [← List.countP_eq_length_filter, List.count, List.countP_map]
    rfl
  have hlen : (bucketStarts n (items.map key)).get (k + 1) -
      (bucketStarts n (items.map key)).get k =
      (items.filter fun x => key x == k).length := by
    rw [bucketStarts_succ n _ hk, hcount]
    omega
  apply List.ext_getElem?
  intro i
  rw [bucketOf, hlen, List.getElem?_map]
  by_cases hi : i < (items.filter fun x => key x == k).length
  · rw [List.getElem?_range' hi, Option.map_some, Nat.one_mul, List.getElem?_eq_getElem hi]
    congr 1
    exact place_spec key items _ entries (apart_bucketStarts n key items hn) k i _
      (List.getElem?_eq_getElem hi)
  · rw [List.getElem?_eq_none (by rw [List.length_range']; omega),
      List.getElem?_eq_none (by omega), Option.map_none]

end Qld.Lib
