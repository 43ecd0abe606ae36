import Mathlib.Data.List.Sort
import Qld.Lib.CountingSort

/-!
# Compressed sparse rows

The model of the part of `passes/csr.rs` that the passes read: many variable-length rows in
one offset table and one value list.  The invariant of the table (it starts at zero, never
decreases and ends at the number of values) is part of the type, as `Csr::from_parts` and the
builders establish it.

* `Csr`, `Csr.row` — the table and its rows;
* `Csr.ofRows` — the table of given rows; `Csr.eq_ofRows` — a table is determined by
  its rows;
* `CsrBuilder.build` — a table from pairs of a row and a value, by a stable sort;
  `CsrBuilder.row_build` — a row lists its values in the order they were pushed;
  `CsrBuilder.build_eq` — nothing else of the order matters.
-/

namespace Qld.Passes

/-- The caller handed a pass inconsistent data. -/
inductive InputError where
  | badOffsets
  | rowCount (expected found : ℕ)
  | outOfRange (what : String) (index len : ℕ)
  | tooLarge (what : String)
  | mismatch (what : String) (index : ℕ)
  deriving DecidableEq, Repr

/-- A list of variable-length rows stored in two flat lists. -/
structure Csr (α : Type*) where
  offsets : List ℕ
  values : List α
  head : offsets.head? = some 0
  last : offsets.getLast? = some values.length
  mono : offsets.Pairwise (· ≤ ·)

namespace Csr

variable {α : Type*}

/-- `rows` empty rows. -/
def empty (rows : ℕ) : Csr α where
  offsets := List.replicate (rows + 1) 0
  values := []
  head := by rw [List.head?_replicate, if_neg (Nat.succ_ne_zero rows)]
  last := by
    rw [List.getLast?_replicate, if_neg (Nat.succ_ne_zero rows)]
    rfl
  mono := List.pairwise_replicate.mpr (.inr (Nat.le_refl 0))

/-- Number of rows. -/
def rows (c : Csr α) : ℕ := c.offsets.length - 1

/-- The values of row `row`; empty if `row` is out of range. -/
def row (c : Csr α) (row : ℕ) : List α :=
  match c.offsets[row]?, c.offsets[row + 1]? with
  | some start, some stop => (c.values.drop start).take (stop - start)
  | _, _ => []

@[simp] theorem rows_empty (n : ℕ) : (empty n : Csr α).rows = n := by
  rw [rows, empty, List.length_replicate, Nat.add_sub_cancel]

@[simp] theorem row_empty (n i : ℕ) : (empty n : Csr α).row i = [] := by
  rw [row]
  split
  · rw [empty, List.drop_nil, List.take_nil]
  · rfl

variable {i : ℕ}

theorem mem_values_of_mem_row (c : Csr α) {x : α} (hx : x ∈ c.row i) :
    x ∈ c.values := by
  unfold row at hx
  split at hx
  · exact List.mem_of_mem_drop (List.mem_of_mem_take hx)
  · exact absurd hx List.not_mem_nil

/-! ### The table of given rows -/

/-- Where rows start that are stored one after another from `start` on. -/
def starts (start : ℕ) : List (List α) → List ℕ
  | [] => []
  | row :: rows => start :: starts (start + row.length) rows

@[simp] theorem length_starts (rows : List (List α)) : ∀ start : ℕ,
    (starts start rows).length = rows.length := by
  induction rows with
  | nil => intro _; rfl
  | cons row rows ih => intro start; rw [starts, List.length_cons, ih, List.length_cons]

theorem starts_append (l r : List (List α)) : ∀ start : ℕ,
    starts start (l ++ r) = starts start l ++ starts (start + l.flatten.length) r := by
  induction l with
  | nil => intro start; rfl
  | cons row l ih =>
    intro start
    rw [List.cons_append, starts, ih, starts, List.flatten_cons, List.length_append,
      List.cons_append, Nat.add_assoc]

/-- A row starts after the values of the rows before it. -/
theorem getElem?_starts (rows : List (List α)) : ∀ start i : ℕ, i < rows.length →
    (starts start rows)[i]? = some (start + (rows.take i).flatten.length) := by
  induction rows with
  | nil => intro _ i h; exact absurd h (Nat.not_lt_zero i)
  | cons row rows ih =>
    intro start i h
    cases i with
    | zero => rfl
    | succ i =>
      rw [starts, List.getElem?_cons_succ, ih _ i (Nat.lt_of_succ_lt_succ h),
        List.take_succ_cons, List.flatten_cons, List.length_append, Nat.add_assoc]

variable {rows : List (List α)}

theorem bounds_of_mem_starts : ∀ {start x : ℕ}, x ∈ starts start rows →
    start ≤ x ∧ x ≤ start + rows.flatten.length := by
  induction rows with
  | nil => intro _ _ h; exact absurd h List.not_mem_nil
  | cons row rows ih =>
    intro start x h
    rw [List.flatten_cons, List.length_append]
    rcases List.mem_cons.mp h with rfl | h
    · omega
    · have := ih h
      omega

theorem starts_mono (rows : List (List α)) : ∀ start : ℕ,
    (starts start rows).Pairwise (· ≤ ·) := by
  induction rows with
  | nil => intro _; exact List.Pairwise.nil
  | cons row rows ih =>
    intro start
    refine List.pairwise_cons.mpr ⟨fun x hx => ?_, ih _⟩
    exact (Nat.le_add_right _ _).trans (bounds_of_mem_starts hx).1

/-- The offset table of rows that are stored one after another. -/
def offsetsOf (rows : List (List α)) : List ℕ := starts 0 rows ++ [rows.flatten.length]

theorem getElem?_offsetsOf (rows : List (List α)) (h : i ≤ rows.length) :
    (offsetsOf rows)[i]? = some (rows.take i).flatten.length := by
  rw [offsetsOf]
  rcases Nat.lt_or_eq_of_le h with h | rfl
  · rw [List.getElem?_append_left (by rwa [length_starts]), getElem?_starts _ _ _ h,
      Nat.zero_add]
  · rw [List.getElem?_append_right (by rw [length_starts]), length_starts, Nat.sub_self,
      List.take_length]
    rfl

/-- The table whose rows are the given lists. -/
def ofRows (rows : List (List α)) : Csr α where
  offsets := offsetsOf rows
  values := rows.flatten
  head := by
    rw [List.head?_eq_getElem?, getElem?_offsetsOf rows (Nat.zero_le _)]
    rfl
  last := List.getLast?_concat
  mono := by
    refine List.pairwise_append.mpr ⟨starts_mono rows 0, List.pairwise_singleton _ _, ?_⟩
    intro x hx y hy
    rw [List.mem_singleton.mp hy]
    exact (bounds_of_mem_starts hx).2.trans_eq (Nat.zero_add _)

@[simp] theorem rows_ofRows (rows : List (List α)) : (ofRows rows).rows = rows.length := by
  show (offsetsOf rows).length - 1 = _
  rw [offsetsOf, List.length_append, length_starts, List.length_singleton,
    Nat.add_sub_cancel]

theorem flatten_take_succ (h : i < rows.length) :
    (rows.take (i + 1)).flatten = (rows.take i).flatten ++ rows[i] := by
  rw [List.take_succ_eq_append_getElem h, List.flatten_append, List.flatten_singleton]

theorem row_ofRows (h : i < rows.length) :
    (ofRows rows).row i = rows[i] := by
  have hcut : rows.flatten = (rows.take i).flatten ++ (rows[i] ++ (rows.drop (i + 1)).flatten) := by
    rw [← List.append_assoc, ← flatten_take_succ h, ← List.flatten_append, List.take_append_drop]
  simp only [Csr.row, ofRows, getElem?_offsetsOf rows h.le,
    getElem?_offsetsOf rows (Nat.succ_le_of_lt h)]
  rw [flatten_take_succ h, List.length_append, Nat.add_sub_cancel_left, hcut, List.drop_left,
    List.take_left]

/-- The offset after a row, in a table whose rows are known. -/
theorem offset_succ (c : Csr α) {start : ℕ} (hi : i < c.rows) (hstart : c.offsets[i]? = some start)
    :
    c.offsets[i + 1]? = some (start + (c.row i).length) ∧
      (c.values.take (start + (c.row i).length)) = c.values.take start ++ c.row i := by
  rw [rows] at hi
  have hlt : i + 1 < c.offsets.length := by omega
  have hstop : c.offsets[i + 1]? = some c.offsets[i + 1] := List.getElem?_eq_getElem hlt
  have hrow : c.row i = (c.values.drop start).take (c.offsets[i + 1] - start) := by
    simp only [row, hstart, hstop]
  have hle : start ≤ c.offsets[i + 1] := by
    obtain ⟨h, rfl⟩ := List.getElem?_eq_some_iff.mp hstart
    exact List.pairwise_iff_getElem.mp c.mono i (i + 1) h hlt (Nat.lt_succ_self i)
  have hend : c.offsets[i + 1] ≤ c.values.length := by
    have hlast := c.last
    rw [List.getLast?_eq_getElem?] at hlast
    obtain ⟨h, hval⟩ := List.getElem?_eq_some_iff.mp hlast
    rcases Nat.lt_or_eq_of_le (Nat.le_sub_one_of_lt hlt) with hlt' | heq
    · exact (List.pairwise_iff_getElem.mp c.mono _ _ hlt h hlt').trans_eq hval
    · simp only [heq, hval, le_refl]
  have hlen : start + (c.row i).length = c.offsets[i + 1] := by
    rw [hrow, List.length_take, List.length_drop]
    omega
  refine ⟨by rw [hlen, hstop], ?_⟩
  rw [hlen, hrow, ← List.take_add]
  congr 1
  omega

theorem ext_parts {c d : Csr α} (hoffsets : c.offsets = d.offsets) (hvalues : c.values = d.values) :
    c = d := by
  cases c
  cases d
  subst hoffsets hvalues
  rfl

/-- **A table is determined by its rows.** -/
theorem eq_ofRows (c : Csr α) : c = ofRows ((List.range c.rows).map c.row) := by
  have hpos : 0 < c.offsets.length := by
    rcases Nat.eq_zero_or_pos c.offsets.length with h | h
    · have hhead := c.head
      rw [List.eq_nil_of_length_eq_zero h] at hhead
      exact absurd hhead (by simp)
    · exact h
  have hpre : ∀ i ≤ c.rows,
      c.offsets[i]? = some (((List.range i).map c.row).flatten.length) ∧
        c.values.take ((List.range i).map c.row).flatten.length =
          ((List.range i).map c.row).flatten := by
    intro i
    induction i with
    | zero =>
      intro _
      refine ⟨?_, rfl⟩
      rw [← List.head?_eq_getElem?, c.head]
      rfl
    | succ i ih =>
      intro hi
      obtain ⟨hstart, hvalues⟩ := ih (Nat.le_of_succ_le hi)
      obtain ⟨hstop, htake⟩ := c.offset_succ hi hstart
      rw [List.range_succ, List.map_append, List.flatten_append, List.map_singleton,
        List.flatten_singleton, List.length_append, htake, hvalues]
      exact ⟨hstop, rfl⟩
  have hcount : ((List.range c.rows).map c.row).length = c.rows := by
    rw [List.length_map, List.length_range]
  have hoffsets : c.offsets = offsetsOf ((List.range c.rows).map c.row) := by
    refine List.ext_getElem? fun i => ?_
    by_cases hi : i ≤ c.rows
    · rw [getElem?_offsetsOf _ (by rwa [hcount]), ← List.map_take, List.take_range,
        Nat.min_eq_left hi]
      exact (hpre i hi).1
    · have hlen : c.offsets.length = c.rows + 1 := by rw [rows]; omega
      have hlen' : (offsetsOf ((List.range c.rows).map c.row)).length = c.rows + 1 := by
        rw [offsetsOf, List.length_append, length_starts, hcount, List.length_singleton]
      rw [List.getElem?_eq_none (by omega), List.getElem?_eq_none (by omega)]
  have hvalues : c.values = ((List.range c.rows).map c.row).flatten := by
    obtain ⟨hend, htake⟩ := hpre c.rows le_rfl
    have hlast := c.last
    rw [List.getLast?_eq_getElem?] at hlast
    rw [rows] at hend
    rw [hend, Option.some.injEq] at hlast
    rw [← rows] at hlast
    rw [hlast, List.take_length] at htake
    exact htake
  exact ext_parts hoffsets hvalues

end Csr

/-! ### The builder -/

/-- Pairs of a row and a value, in the order in which they were pushed. -/
structure CsrBuilder (α : Type*) where
  rows : ℕ
  pairs : List (ℕ × α)

namespace CsrBuilder

open Qld.Lib

variable {α : Type*}

/-- The order of `sort_by_key(|&(row, _)| row)`. -/
def rowLE (a b : ℕ × α) : Prop := a.1 ≤ b.1

instance : DecidableRel (rowLE : ℕ × α → ℕ × α → Prop) := fun a b =>
  inferInstanceAs (Decidable (a.1 ≤ b.1))

instance : Std.Total (rowLE : ℕ × α → ℕ × α → Prop) := ⟨fun a b => Nat.le_total a.1 b.1⟩

instance : IsTrans (ℕ × α) rowLE := ⟨fun _ _ _ => Nat.le_trans⟩

theorem offsets_mono {rows : ℕ} (keys : List ℕ) :
    ((bucketStarts rows keys).toList (rows + 1)).Pairwise (· ≤ ·) := by
  refine List.pairwise_map.mpr (List.pairwise_lt_range.imp_of_mem ?_)
  intro i j _ hj hij
  exact bucketStarts_mono rows keys hij.le (Nat.lt_succ_iff.mp (List.mem_range.mp hj))

theorem bucketStarts_last {rows : ℕ} {keys : List ℕ} (h : ∀ k ∈ keys, k < rows) :
    (bucketStarts rows keys).get rows = keys.length := by
  rw [bucketStarts_eq rows keys rows le_rfl, List.countP_eq_length]
  intro k hk
  exact decide_eq_true (h k hk)

/-- Builds the rows. -/
def build (b : CsrBuilder α) : Except InputError (Csr α) :=
  match hfind : b.pairs.find? fun pair => pair.1 ≥ b.rows with
  | some (row, _) => .error (.outOfRange "row" row b.rows)
  | none =>
    let sorted := b.pairs.insertionSort rowLE
    have hrows : ∀ k ∈ sorted.map Prod.fst, k < b.rows := by
      intro k hk
      obtain ⟨pair, hpair, rfl⟩ := List.mem_map.mp hk
      have hmem := (List.perm_insertionSort rowLE b.pairs).mem_iff.mp hpair
      simpa using List.find?_eq_none.mp hfind pair hmem
    .ok {
      offsets := (bucketStarts b.rows (sorted.map Prod.fst)).toList (b.rows + 1)
      values := sorted.map Prod.snd
      head := by
        rw [Cells.toList, List.range_succ_eq_map, List.map_cons, List.head?_cons,
          bucketStarts_eq _ _ 0 (Nat.zero_le _)]
        simp
      last := by
        rw [Cells.toList, List.range_succ, List.map_append, List.map_singleton,
          List.getLast?_concat, bucketStarts_last hrows]
        simp
      mono := offsets_mono _ }

/-- A sorted list is cut at a row into what is below it, the row, and what is above it. -/
theorem sorted_cut (r : ℕ) (l : List (ℕ × α)) : l.Pairwise rowLE →
    l = l.filter (fun x => x.1 < r) ++
      (l.filter (fun x => x.1 == r) ++ l.filter fun x => r < x.1) := by
  induction l with
  | nil => intro _; rfl
  | cons a l ih =>
    intro hl
    obtain ⟨ha, hl⟩ := List.pairwise_cons.mp hl
    have hrest := ih hl
    -- Where the first row is not below `r`, no row is.
    have hnone (hge : r ≤ a.1) : l.filter (fun x => decide (x.1 < r)) = [] := by
      rw [List.filter_eq_nil_iff]
      intro x hx
      have hax : a.1 ≤ x.1 := ha x hx
      simp only [decide_eq_true_eq]
      omega
    rcases Nat.lt_trichotomy a.1 r with h | h | h
    · simp only [List.filter_cons, h, decide_true, if_true, Nat.ne_of_lt h, beq_iff_eq,
        Nat.not_lt_of_gt h, if_false, decide_false, Bool.false_eq_true, List.cons_append]
      rw [← hrest]
    · have hnone := hnone h.ge
      rw [hnone, List.nil_append] at hrest
      simp only [List.filter_cons, h, Nat.lt_irrefl, decide_false, beq_self_eq_true, if_true,
        Bool.false_eq_true, if_false, hnone, List.nil_append, List.cons_append]
      rw [← hrest]
    · have hnone := hnone h.le
      have hnone' : l.filter (fun x => x.1 == r) = [] := by
        rw [List.filter_eq_nil_iff]
        intro x hx
        have hax : a.1 ≤ x.1 := ha x hx
        simp only [beq_iff_eq]
        omega
      rw [hnone, hnone', List.nil_append, List.nil_append] at hrest
      simp only [List.filter_cons, h, Nat.not_lt_of_gt h, decide_false, Bool.false_eq_true,
        if_false, hnone, hnone', Nat.ne_of_gt h, beq_iff_eq, decide_true, if_true,
        List.nil_append]
      rw [← hrest]

theorem filter_insertionSort (r : ℕ) (l : List (ℕ × α)) :
    (l.insertionSort rowLE).filter (fun x => x.1 == r) = l.filter fun x => x.1 == r := by
  have hrow : (l.filter fun x => x.1 == r).Pairwise rowLE := by
    rw [List.pairwise_iff_getElem]
    intro i j hi hj _
    have hx := List.mem_filter.mp (List.getElem_mem hi)
    have hy := List.mem_filter.mp (List.getElem_mem hj)
    simp only [beq_iff_eq] at hx hy
    show _ ≤ _
    omega
  have hsub := (List.sublist_insertionSort hrow List.filter_sublist).filter fun x => x.1 == r
  rw [List.filter_filter] at hsub
  simp only [Bool.and_self] at hsub
  refine (hsub.eq_of_length ?_).symm
  exact ((List.perm_insertionSort rowLE l).filter _).length_eq.symm

variable {b : CsrBuilder α} {c : Csr α}

/-- **A row lists its values in the order in which they were pushed.** -/
theorem row_build (h : b.build = .ok c) (r : ℕ) :
    c.row r = (b.pairs.filter fun x => x.1 == r).map Prod.snd := by
  unfold build at h
  split at h
  · exact absurd h (by simp)
  next hfind =>
  rw [Except.ok.injEq] at h
  subst h
  let sorted := b.pairs.insertionSort rowLE
  have hget : ∀ i, ((bucketStarts b.rows (sorted.map Prod.fst)).toList (b.rows + 1))[i]? =
      if i ≤ b.rows then some ((bucketStarts b.rows (sorted.map Prod.fst)).get i) else none := by
    intro i
    rw [Cells.toList, List.getElem?_map]
    split
    · rw [List.getElem?_range (by omega), Option.map_some]
    · rw [List.getElem?_eq_none (by rw [List.length_range]; omega), Option.map_none]
  simp only [Csr.row]
  rw [hget r, hget (r + 1)]
  by_cases hr : r < b.rows
  · have hsorted : sorted.Pairwise rowLE := List.pairwise_insertionSort rowLE b.pairs
    have hcut := sorted_cut r sorted hsorted
    have hstart : (bucketStarts b.rows (sorted.map Prod.fst)).get r =
        (sorted.filter fun x => x.1 < r).length := by
      rw [bucketStarts_eq _ _ r hr.le, List.countP_map, List.countP_eq_length_filter]
      rfl
    have hcount : (sorted.map Prod.fst).count r = (sorted.filter fun x => x.1 == r).length := by
      rw [List.count, List.countP_map, List.countP_eq_length_filter]
      rfl
    have hrow : (sorted.drop (sorted.filter fun x => x.1 < r).length).take
        (sorted.filter fun x => x.1 == r).length = sorted.filter fun x => x.1 == r := by
      have hdrop := congrArg (List.drop (sorted.filter fun x => x.1 < r).length) hcut
      rw [List.drop_left] at hdrop
      rw [hdrop, List.take_left]
    rw [if_pos hr.le, if_pos (show r + 1 ≤ b.rows from hr)]
    simp only
    rw [bucketStarts_succ _ _ hr, hcount, hstart, Nat.add_sub_cancel_left, ← List.map_drop,
      ← List.map_take, ← filter_insertionSort r b.pairs]
    exact congrArg (List.map Prod.snd) hrow
  · -- No pair has a row that is out of range.
    have hnone : (b.pairs.filter fun x => x.1 == r) = [] := by
      rw [List.filter_eq_nil_iff]
      intro x hx hxr
      have hlt := List.find?_eq_none.mp hfind x hx
      simp only [ge_iff_le, decide_eq_true_eq, not_le, beq_iff_eq] at hlt hxr
      omega
    rw [hnone, if_neg (show ¬ r + 1 ≤ b.rows by omega)]
    split
    · next h1 h2 => exact absurd h2 (by simp)
    · rfl

theorem rows_build (h : b.build = .ok c) : c.rows = b.rows := by
  unfold build at h
  split at h
  · exact absurd h (by simp)
  · rw [Except.ok.injEq] at h
    subst h
    simp only [Csr.rows, Cells.toList, List.length_map, List.length_range, Nat.add_sub_cancel]

theorem build_ok (h : ∀ pair ∈ b.pairs, pair.1 < b.rows) :
    ∃ c, b.build = .ok c := by
  unfold build
  split
  · next row value hfind =>
    have hrow := List.find?_some hfind
    have hlt := h _ (List.mem_of_find?_eq_some hfind)
    simp only [ge_iff_le, decide_eq_true_eq] at hrow hlt
    omega
  · exact ⟨_, rfl⟩

/-- **Pairs in any order that keeps the values of each row in order make the same table.** -/
theorem build_eq (hrows : c.rows = b.rows) (hrange : ∀ pair ∈ b.pairs, pair.1 < b.rows)
    (h : ∀ i < b.rows, (b.pairs.filter fun x => x.1 == i).map Prod.snd = c.row i) :
    b.build = .ok c := by
  obtain ⟨d, hd⟩ := build_ok hrange
  rw [hd, c.eq_ofRows, d.eq_ofRows, rows_build hd, hrows]
  refine congrArg (fun rows => Except.ok (Csr.ofRows rows)) ?_
  refine List.map_congr_left fun i hi => ?_
  rw [row_build hd, h i (List.mem_range.mp hi)]

end CsrBuilder

end Qld.Passes
