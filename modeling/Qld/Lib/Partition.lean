import Mathlib.Algebra.BigOperators.Group.List.Basic
import Mathlib.Algebra.GroupWithZero.Nat
import Mathlib.Data.List.Count
import Mathlib.Data.List.Induction
import Mathlib.Data.List.Nodup
import Mathlib.Order.Lattice

/-!
# Partitioning a sequence into buckets, a chunk at a time

A sequence of items is cut into chunks.  Each chunk counts its items per bucket; the counts are
summed to the cursors at which each chunk writes its items into the region of their bucket.
Walking a chunk again with the same cursors finds the place of every item.

* `advance`, `countKeys`, `rowCursors`, `regionStarts` — cursors, and how they start;
* `scatter`, `scatterChunks`, `replay` — writing the items, and finding them again;
* `cursorAfter` — where the cursors stand when a given list of items was written;
* `Placed` — every item is at its place; `scatterChunks_placed`, `replay_eq`,
  `Placed.region` — the chunks place all items, a replay reads their places, and a
  region holds the items of its bucket in order.
-/

namespace Qld.Lib

variable {α β : Type*}

/-! ### The passes -/

/-- Moves the cursor of bucket `k` on by one. -/
def advance (cursor : ℕ → ℕ) (k : ℕ) : ℕ → ℕ := Function.update cursor k (cursor k + 1)

/-- The number of items of each bucket. -/
def countKeys (key : α → ℕ) (items : List α) : ℕ → ℕ :=
  items.foldl (fun row x => advance row (key x)) fun _ => 0

/-- Turns the counts of each chunk into the cursors at which it starts. -/
def rowCursors : List (ℕ → ℕ) → (ℕ → ℕ) → List (ℕ → ℕ)
  | [], _ => []
  | row :: rows, next => next :: rowCursors rows fun k => next k + row k

/-- The counts of all chunks together. -/
def sumRows (rows : List (ℕ → ℕ)) : ℕ → ℕ :=
  rows.foldl (fun sum row k => sum k + row k) fun _ => 0

/-- The starts of `n` regions laid end to end, and the end of the last. -/
def regionStarts (n : ℕ) (sums : ℕ → ℕ) : List ℕ := ((List.range n).map sums).scanl (· + ·) 0

/-- Writes each item at the cursor of its bucket, and advances the cursor. -/
def scatter (key : α → ℕ) (val : α → β) :
    List α → (ℕ → ℕ) → (ℕ → β) → (ℕ → ℕ) × (ℕ → β)
  | [], cursor, entries => (cursor, entries)
  | x :: items, cursor, entries =>
    scatter key val items (advance cursor (key x))
      (Function.update entries (cursor (key x)) (val x))

/-- Scatters the chunks, each from its own cursors; returns where the cursors end. -/
def scatterChunks (key : α → ℕ) (val : α → β) :
    List (List α) → List (ℕ → ℕ) → (ℕ → β) → List (ℕ → ℕ) × (ℕ → β)
  | items :: chunks, row :: rows, entries =>
    let done := scatter key val items row entries
    let rest := scatterChunks key val chunks rows done.2
    (done.1 :: rest.1, rest.2)
  | _, _, entries => ([], entries)

/-- Walks the items with their cursors, reading the entry of each. -/
def replay (key : α → ℕ) (entries : ℕ → β) : List α → (ℕ → ℕ) → List (α × β)
  | [], _ => []
  | x :: items, cursor =>
    (x, entries (cursor (key x))) :: replay key entries items (advance cursor (key x))

/-- Overwrites the entries from `start` on. -/
def writeAt (entries : ℕ → β) (start : ℕ) (values : List β) : ℕ → β := fun p =>
  if start ≤ p then (values[p - start]?).getD (entries p) else entries p

/-- Overwrites the regions of the given buckets. -/
def writeRegions {κ : Type*} (start : κ → ℕ) (values : κ → List β) (buckets : List κ)
    (entries : ℕ → β) : ℕ → β :=
  buckets.foldl (fun entries k => writeAt entries (start k) (values k)) entries

/-! ### Cursors -/

section Cursors

variable (key : α → ℕ)

/-- The cursors when the given items were written. -/
def cursorAfter (start : ℕ → ℕ) (items : List α) : ℕ → ℕ := fun k =>
  start k + (items.map key).count k

@[simp] theorem cursorAfter_nil (start : ℕ → ℕ) : cursorAfter key start [] = start := by
  funext k
  simp [cursorAfter]

theorem advance_cursorAfter (start : ℕ → ℕ) (items : List α) (x : α) :
    advance (cursorAfter key start items) (key x) = cursorAfter key start (items ++ [x]) := by
  funext k
  unfold advance cursorAfter
  by_cases hk : k = key x
  · subst hk
    simp [Nat.add_assoc]
  · rw [Function.update_of_ne hk]
    simp [Ne.symm hk]

theorem countKeys_eq (items : List α) : countKeys key items = cursorAfter key (fun _ => 0) items := by
  induction items using List.reverseRecOn with
  | nil => rw [cursorAfter_nil]; rfl
  | append_singleton items x ih =>
    rw [countKeys, List.foldl_append, List.foldl_cons, List.foldl_nil]
    rw [countKeys] at ih
    rw [ih, advance_cursorAfter]

theorem sumRows_eq (chunks : List (List α)) (k : ℕ) :
    sumRows (chunks.map (countKeys key)) k = (chunks.flatten.map key).count k := by
  have hfold : ∀ (chunks : List (List α)) (sum : ℕ → ℕ),
      (chunks.map (countKeys key)).foldl (fun sum row k => sum k + row k) sum k =
        sum k + (chunks.flatten.map key).count k := by
    intro chunks
    induction chunks with
    | nil => intro sum; rfl
    | cons items chunks ih =>
      intro sum
      rw [List.map_cons, List.foldl_cons, ih, countKeys_eq]
      simp [cursorAfter, Nat.add_assoc]
  rw [sumRows, hfold, Nat.zero_add]

end Cursors

/-! ### Regions -/

theorem drop_scanl_add (l : List ℕ) : ∀ (a k : ℕ), k ≤ l.length →
    (l.scanl (· + ·) a).drop k = (l.drop k).scanl (· + ·) (a + (l.take k).sum) := by
  induction l with
  | nil => intro a k hk; simp [Nat.le_zero.mp hk]
  | cons x l ih =>
    intro a k hk
    cases k with
    | zero => simp
    | succ k =>
      rw [List.scanl_cons, List.drop_succ_cons, ih (a + x) k (by simpa using hk),
        List.take_succ_cons, List.sum_cons, Nat.add_assoc, List.drop_succ_cons]

theorem scanl_add_getD (l : List ℕ) (a k : ℕ) (hk : k ≤ l.length) :
    (l.scanl (· + ·) a).getD k 0 = a + (l.take k).sum := by
  rw [List.getD_eq_getElem?_getD, ← List.head?_drop, drop_scanl_add l a k hk, List.head?_scanl,
    Option.getD_some]

variable {k : ℕ}

theorem regionStarts_getD (n : ℕ) (sums : ℕ → ℕ) (hk : k ≤ n) :
    (regionStarts n sums).getD k 0 = ((List.range k).map sums).sum := by
  rw [regionStarts, scanl_add_getD _ _ _ (by simpa using hk), Nat.zero_add, ← List.map_take,
    List.take_range, inf_eq_left.mpr hk]

theorem regionStarts_succ (n : ℕ) (sums : ℕ → ℕ) (hk : k < n) :
    (regionStarts n sums).getD (k + 1) 0 = (regionStarts n sums).getD k 0 + sums k := by
  rw [regionStarts_getD n sums hk, regionStarts_getD n sums (Nat.le_of_lt hk), List.range_succ,
    List.map_append, List.sum_append]
  simp

theorem regionStarts_mono (n : ℕ) (sums : ℕ → ℕ) {j : ℕ} (hjk : j ≤ k) (hk : k ≤ n) :
    (regionStarts n sums).getD j 0 ≤ (regionStarts n sums).getD k 0 := by
  induction hjk with
  | refl => exact le_rfl
  | step _ ih =>
    rw [regionStarts_succ n sums (by omega)]
    exact (ih (by omega)).trans (Nat.le_add_right _ _)

/-- No two buckets of the items share a place. -/
def ApartRegions (key : α → ℕ) (start : ℕ → ℕ) (items : List α) : Prop :=
  ∀ j k a b, a < (items.map key).count j → b < (items.map key).count k →
    start j + a = start k + b → j = k

variable {key : α → ℕ}

theorem ApartRegions.left {start : ℕ → ℕ} {xs ys : List α} (h : ApartRegions key start (xs ++ ys)) :
    ApartRegions key start xs := by
  intro j k a b ha hb heq
  have hcount : ∀ k, ((xs ++ ys).map key).count k = (xs.map key).count k + (ys.map key).count k :=
    fun k => by rw [List.map_append, List.count_append]
  have hj := hcount j
  have hk := hcount k
  exact h j k a b (by omega) (by omega) heq

theorem regionStarts_apart (n : ℕ) {items : List α} (hn : ∀ x ∈ items, key x < n) {sums : ℕ → ℕ}
    (hsums : ∀ k, sums k = (items.map key).count k) :
    ApartRegions key (fun k => (regionStarts n sums).getD k 0) items := by
  have hlt : ∀ j k a b, j < k → a < (items.map key).count j → b < (items.map key).count k →
      (regionStarts n sums).getD j 0 + a ≠ (regionStarts n sums).getD k 0 + b := by
    intro j k a b hjk ha hb heq
    have hk : k < n := by
      obtain ⟨x, hx, rfl⟩ := List.mem_map.mp (List.count_pos_iff.mp (Nat.zero_lt_of_lt hb))
      exact hn x hx
    have hnext := regionStarts_succ n sums (show j < n by omega)
    have hmono := regionStarts_mono n sums (show j + 1 ≤ k by omega) (Nat.le_of_lt hk)
    rw [hsums j] at hnext
    omega
  intro j k a b ha hb heq
  rcases Nat.lt_trichotomy j k with h | h | h
  · exact absurd heq (hlt j k a b h ha hb)
  · exact h
  · exact absurd heq.symm (hlt k j b a h hb ha)

/-! ### Placing and finding -/

section Place

variable {key : α → ℕ} {start : ℕ → ℕ}

/-- Every item is at its place: the cursor of its bucket after the items before it. -/
def Placed (key : α → ℕ) (val : α → β) (start : ℕ → ℕ) (items : List α) (entries : ℕ → β) :
    Prop :=
  ∀ before x after, items = before ++ x :: after →
    entries (cursorAfter key start before (key x)) = val x

variable {val : α → β} {entries : ℕ → β}

theorem Placed.snoc {items : List α} {x : α} (hapart : ApartRegions key start (items ++ [x]))
    (h : Placed key val start items entries) :
    Placed key val start (items ++ [x])
      (Function.update entries (cursorAfter key start items (key x)) (val x)) := by
  intro before y after hsplit
  rcases List.eq_nil_or_concat after with rfl | ⟨after, z, rfl⟩
  · obtain ⟨rfl, hxy⟩ := List.append_inj' hsplit rfl
    rw [List.singleton_inj.mp hxy, Function.update_self]
  · rw [List.concat_eq_append, ← List.cons_append, ← List.append_assoc] at hsplit
    obtain ⟨hitems, hxz⟩ := List.append_inj' hsplit rfl
    rw [Function.update_of_ne, h before y after hitems]
    -- An earlier item of the same bucket has a smaller place, one of another bucket is apart.
    have hy : (before.map key).count (key y) < (items.map key).count (key y) := by
      rw [hitems, List.map_append, List.map_cons, List.count_append, List.count_cons_self]
      omega
    intro heq
    have hkey : key y = key x := by
      refine hapart (key y) (key x) _ _ ?_ ?_ heq
      · rw [List.map_append, List.count_append]
        omega
      · rw [List.map_append, List.count_append]
        simp
    unfold cursorAfter at heq
    rw [← hkey] at heq
    omega

theorem scatter_placed (val : α → β) (items : List α) : ∀ (done : List α) (entries : ℕ → β),
    ApartRegions key start (done ++ items) →
    Placed key val start done entries →
    (scatter key val items (cursorAfter key start done) entries).1 =
        cursorAfter key start (done ++ items) ∧
      Placed key val start (done ++ items)
        (scatter key val items (cursorAfter key start done) entries).2 := by
  induction items with
  | nil => intro done entries _ h; rw [List.append_nil]; exact ⟨rfl, h⟩
  | cons x items ih =>
    intro done entries hapart h
    have hsnoc : done ++ x :: items = done ++ [x] ++ items := by
      rw [List.append_assoc, List.singleton_append]
    rw [hsnoc] at hapart ⊢
    have := ih (done ++ [x]) _ hapart (h.snoc hapart.left)
    rw [scatter, advance_cursorAfter]
    exact this

/-- **All chunks are placed.** -/
theorem scatterChunks_placed (val : α → β) (chunks : List (List α)) :
    ∀ (done : List α) (entries : ℕ → β),
      ApartRegions key start (done ++ chunks.flatten) →
      Placed key val start done entries →
      (scatterChunks key val chunks
          (rowCursors (chunks.map (countKeys key)) (cursorAfter key start done)) entries).1 =
        (List.range chunks.length).map (fun c =>
          cursorAfter key start (done ++ (chunks.take (c + 1)).flatten)) ∧
      Placed key val start (done ++ chunks.flatten)
        (scatterChunks key val chunks
          (rowCursors (chunks.map (countKeys key)) (cursorAfter key start done)) entries).2 := by
  induction chunks with
  | nil => intro done entries _ h; simpa [scatterChunks] using h
  | cons items chunks ih =>
    intro done entries hapart h
    rw [List.flatten_cons, ← List.append_assoc] at hapart ⊢
    obtain ⟨hcursor, hplaced⟩ := scatter_placed val items done entries hapart.left h
    have hnext : (fun k => cursorAfter key start done k + countKeys key items k) =
        cursorAfter key start (done ++ items) := by
      funext k
      rw [countKeys_eq]
      simp [cursorAfter, Nat.add_assoc]
    rw [List.map_cons, rowCursors, hnext, scatterChunks]
    obtain ⟨hrows, hall⟩ := ih (done ++ items) _ hapart hplaced
    refine ⟨?_, hall⟩
    rw [hcursor]
    simp only [hrows, List.length_cons]
    rw [List.range_succ_eq_map, List.map_cons, List.map_map]
    simp [Function.comp_def]

/-- **A replay reads the places of its items.** -/
theorem replay_eq {all : List α} (h : Placed key val start all entries) (items : List α) :
    ∀ done rest : List α,
    all = done ++ items ++ rest →
    replay key entries items (cursorAfter key start done) = items.map fun x => (x, val x) := by
  induction items with
  | nil => intro done rest _; rfl
  | cons x items ih =>
    intro done rest hall
    rw [replay, List.map_cons, h done x (items ++ rest) (by rw [hall]; simp),
      advance_cursorAfter, ih (done ++ [x]) rest (by rw [hall]; simp)]

/-- **A region holds the items of its bucket, in order.** -/
theorem Placed.region {items : List α} (h : Placed key val start items entries) (k : ℕ) :
    (List.range' (start k) ((items.map key).count k)).map entries =
      (items.filter fun x => key x == k).map val := by
  induction items using List.reverseRecOn with
  | nil => rfl
  | append_singleton items x ih =>
    have hitems : Placed key val start items entries := fun before y after hsplit =>
      h before y (after ++ [x]) (by rw [hsplit]; simp)
    rw [List.map_append, List.count_append, List.filter_append, List.map_append,
      ← ih hitems, ← List.range'_append_1, List.map_append]
    congr 1
    by_cases hk : key x = k
    · have hx := h items x [] rfl
      unfold cursorAfter at hx
      rw [hk] at hx
      simp [hk, hx]
    · simp [hk]

end Place

/-! ### Overwriting the regions -/

theorem writeAt_of_lt (entries : ℕ → β) {start p : ℕ} {values : List β} {v : β}
    (hp : start ≤ p) (hv : values[p - start]? = some v) : writeAt entries start values p = v := by
  rw [writeAt, if_pos hp, hv, Option.getD_some]

theorem writeAt_of_outside (entries : ℕ → β) {start p : ℕ} {values : List β}
    (hp : ∀ i < values.length, p ≠ start + i) : writeAt entries start values p = entries p := by
  rw [writeAt]
  split
  · next hle =>
    rw [List.getElem?_eq_none, Option.getD_none]
    by_contra hlt
    exact hp (p - start) (by omega) (by omega)
  · rfl

/-- Regions that are apart keep what was written to each. -/
theorem writeRegions_get {κ : Type*} (start : κ → ℕ) (values : κ → List β)
    (hapart : ∀ j k a b, a < (values j).length → b < (values k).length →
      start j + a = start k + b → j = k)
    (buckets : List κ) : ∀ (entries : ℕ → β) {k : κ} {i : ℕ} {v : β},
      k ∈ buckets ∨ entries (start k + i) = v → (values k)[i]? = some v →
      writeRegions start values buckets entries (start k + i) = v := by
  induction buckets with
  | nil =>
    intro entries k i v hk _
    exact hk.resolve_left List.not_mem_nil
  | cons j buckets ih =>
    intro entries k i v hk hv
    rw [writeRegions, List.foldl_cons]
    refine ih _ ?_ hv
    by_cases hjk : j = k
    · subst hjk
      exact .inr (writeAt_of_lt _ (Nat.le_add_right _ _) (by rwa [Nat.add_sub_cancel_left]))
    · rcases hk with hk | hk
      · exact .inl ((List.mem_cons.mp hk).resolve_left (Ne.symm hjk))
      · refine .inr ?_
        rw [writeAt_of_outside, hk]
        intro a ha heq
        have hi := (List.getElem?_eq_some_iff.mp hv).1
        exact hjk (hapart j k a i ha hi heq.symm)

theorem length_filter_key (key : α → ℕ) (items : List α) (k : ℕ) :
    (items.filter fun x => key x == k).length = (items.map key).count k := by
  rw [← List.countP_eq_length_filter, List.count, List.countP_map]
  rfl

/-- **New values at the places.**  Every bucket computes values from its items, in
order, and overwrites its region with them. -/
theorem placed_writeRegions {κ : Type*} {val : α → β} {start : ℕ → ℕ} {items : List α}
    (hapart : ApartRegions key start items) {code : κ → ℕ} (hcode : Function.Injective code)
    {buckets : List κ} (hbuckets : ∀ x ∈ items, ∃ k ∈ buckets, code k = key x) {values : κ → List β}
    (hvalues : ∀ k, values k = (items.filter fun x => key x == code k).map val) (entries : ℕ → β) :
    Placed key val start items (writeRegions (fun k => start (code k)) values buckets entries) := by
  intro before x after hsplit
  obtain ⟨k, hk, hkx⟩ := hbuckets x (by simp [hsplit])
  rw [← hkx]
  refine writeRegions_get (fun k => start (code k)) values ?_ buckets entries (.inl hk) ?_
  · intro i j a b ha hb heq
    rw [hvalues, List.length_map, length_filter_key] at ha hb
    exact hcode (hapart _ _ a b ha hb heq)
  · have hcount : ((before.filter fun y => key y == code k).map val).length =
        (before.map key).count (code k) := by
      rw [List.length_map, length_filter_key]
    rw [hvalues, hsplit, List.filter_append, List.map_append,
      List.getElem?_append_right (le_of_eq hcount), hcount, Nat.sub_self, List.filter_cons, ← hkx,
      beq_self_eq_true, if_pos rfl]
    rfl

end Qld.Lib
