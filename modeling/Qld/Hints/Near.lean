import Mathlib.Data.List.Range
import Mathlib.Data.UInt
import Qld.Lib.Alignment
import Qld.Lib.Except
import Qld.Lib.Word64

/-!
# Near misses

The model of `bounded_distance` of `hints/near.rs`: the distance of two names by edits and
transpositions of neighbours, if it is at most a bound.  Of the table of distances it computes a
band around the diagonal, in three rows that take turns.

* `cellStep`, `rowStep`, `boundedDistance` — a cell, a row, the table;
* `Agrees` — a cell holds its distance, or both are out of reach;
* `RowsOk` — the cells that later rows read;
* `boundedDistance_eq` — the distance, when it is at most the bound.
-/

namespace Qld.Hints

open Qld.Lib

/-- A distance out of reach. -/
def FAR : ℕ := U64_MAX / 2

/-- `abs_diff`. -/
def absDiff (a b : ℕ) : ℕ := if a ≤ b then b - a else a - b

/-- `clear`, then `resize`. -/
def refill (_ : List ℕ) (len value : ℕ) : List ℕ := List.replicate len value

/-- The rows of the table: the last but one, the last, and the one under way. -/
structure Rows where
  before : List ℕ
  previous : List ℕ
  current : List ℕ
  deriving DecidableEq, Repr

/-- A cell of a row. -/
def cell (row : List ℕ) (j : ℕ) : ℕ := row[j]?.getD U64_MAX

section Table

variable (a b : List UInt8) (max : ℕ)

/-- The cell of `a[i]` and `b[j]`. -/
def cellValue (i j : ℕ) (ca cb : UInt8) (rows : Rows) : ℕ :=
  let cost := if ca ≠ cb then 1 else 0
  let deletion := saturatingAdd (cell rows.previous (j + 1)) 1
  let insertion := saturatingAdd (cell rows.current j) 1
  let substitution := saturatingAdd (cell rows.previous j) cost
  let value := min (min deletion insertion) substitution
  if 0 < i ∧ 0 < j ∧ a[i - 1]? = some cb ∧ b[j - 1]? = some ca then
    min value (saturatingAdd (cell rows.before (j - 1)) 1)
  else value

/-- Computes a cell; the number is the least of the row. -/
def cellStep (i : ℕ) (ca : UInt8) (s : Rows × ℕ) (x : UInt8 × ℕ) : Rows × ℕ :=
  let value := cellValue a b i x.2 ca x.1 s.1
  ({ s.1 with current := s.1.current.set (x.2 + 1) value }, min s.2 value)

/-- Computes a row: the cells within `max` of the diagonal, and those just outside.  A row that is
out of reach ends the table. -/
def rowStep (rows : Rows) (x : UInt8 × ℕ) : Except Rows Rows :=
  let (ca, i) := x
  let row := saturatingAdd i 1
  let low := i - max
  let high := min (saturatingAdd row max) b.length
  let edge := if low = 0 ∧ row ≤ max then row else FAR
  let current := (rows.current.set low edge).set (saturatingAdd high 1) FAR
  let (rows, rowMin) :=
    ((b.zipIdx.take high).drop low).foldl (cellStep a b i ca) ({ rows with current }, edge)
  if max < rowMin then .error rows else .ok ⟨rows.previous, rows.current, rows.before⟩

/-- `bounded_distance`, with the rows as it leaves them. -/
def boundedDistance (rows : Rows) : Option ℕ × Rows :=
  if max < absDiff a.length b.length then (none, rows)
  else
    let width := saturatingAdd b.length 1
    let start : Rows := ⟨refill rows.before width FAR,
      (List.range width).map fun j => if j ≤ max then j else FAR, refill rows.current width FAR⟩
    match a.zipIdx.foldlM (rowStep a b max) start with
    | .error rows => (none, rows)
    | .ok rows => (rows.previous.getLast?.filter (· ≤ max), rows)

end Table

/-! ### Cells -/

/-- A cell holds a distance that is at most the bound, and is out of reach for one that is not. -/
def Agrees (max value d : ℕ) : Prop := (d ≤ max → value = d) ∧ (max < d → max < value)

variable {a b : List UInt8} {max : ℕ}

theorem agrees_self (d : ℕ) : Agrees max d d := ⟨fun _ => rfl, fun h => h⟩

variable {value d j i : ℕ}

theorem agrees_far (hd : max < d) (hvalue : max < value) : Agrees max value d :=
  ⟨fun h => absurd hd (Nat.not_lt.mpr h), fun _ => hvalue⟩

theorem Agrees.le_iff (h : Agrees max value d) : value ≤ max ↔ d ≤ max := by
  constructor
  · intro hvalue
    by_contra hd
    have := h.2 (Nat.lt_of_not_le hd)
    omega
  · intro hd
    rw [h.1 hd]
    exact hd

theorem Agrees.saturatingAdd {k : ℕ} (h : Agrees max value d) (hk : d + k ≤ U64_MAX) :
    Agrees max (saturatingAdd value k) (d + k) := by
  rw [Lib.saturatingAdd]
  constructor
  · intro hle
    rw [h.1 (by omega)]
    exact Nat.min_eq_left hk
  · intro hlt
    refine Nat.lt_min.mpr ⟨?_, hlt.trans_le hk⟩
    by_cases hd : d ≤ max
    · rwa [h.1 hd]
    · have := h.2 (Nat.lt_of_not_le hd)
      omega

theorem Agrees.min {value' d' : ℕ} (h : Agrees max value d) (h' : Agrees max value' d') :
    Agrees max (min value value') (min d d') := by
  constructor
  · intro hle
    by_cases hd : d ≤ max
    · by_cases hd' : d' ≤ max
      · rw [h.1 hd, h'.1 hd']
      · have := h'.2 (Nat.lt_of_not_le hd')
        rw [h.1 hd]
        omega
    · have := h.2 (Nat.lt_of_not_le hd)
      have := h'.1 (by omega)
      omega
  · intro hlt
    have := h.2 (by omega)
    have := h'.2 (by omega)
    omega

theorem cell_set_self {row : List ℕ} (h : j < row.length) :
    cell (row.set j value) j = value := by
  rw [cell, List.getElem?_set_self h, Option.getD_some]

theorem cell_set_ne {row : List ℕ} {k : ℕ} (h : j ≠ k) :
    cell (row.set j value) k = cell row k := by
  rw [cell, List.getElem?_set_ne h, cell]

/-! ### Rows -/

/-- The cells of a row that later rows read hold distances: those within the bound of the diagonal,
and one more on either side. -/
structure RowOk (a b : List UInt8) (max i : ℕ) (row : List ℕ) : Prop where
  length : row.length = b.length + 1
  cells : ∀ c ≤ b.length, i ≤ c + max + 1 → c ≤ i + max + 1 →
    Agrees max (cell row c) (osa a b i c)

/-- The rows before row `i + 1` is computed. -/
structure RowsOk (a b : List UInt8) (max i : ℕ) (rows : Rows) : Prop where
  previous : RowOk a b max i rows.previous
  before : 0 < i → RowOk a b max (i - 1) rows.before
  length : rows.before.length = b.length + 1 ∧ rows.current.length = b.length + 1

/-- Row `i + 1` with the cells from `low` to `j`, and its least distance. -/
structure CellsOk (a b : List UInt8) (max i low high j : ℕ) (s : Rows × ℕ) : Prop where
  previous : RowOk a b max i s.1.previous
  before : 0 < i → RowOk a b max (i - 1) s.1.before
  length : s.1.before.length = b.length + 1 ∧ s.1.current.length = b.length + 1
  cells : ∀ c ≤ b.length, low ≤ c → c ≤ j ∨ c = high + 1 →
    Agrees max (cell s.1.current c) (osa a b (i + 1) c)
  least : s.2 ≤ max ↔ ∃ c, low ≤ c ∧ c ≤ j ∧ osa a b (i + 1) c ≤ max

variable {ca : UInt8}

/-- **A cell near the diagonal holds its distance.** -/
theorem cellValue_agrees (ha : a.length < 2 ^ 63) (hb : b.length < 2 ^ 63) {cb : UInt8}
    (hca : a[i]? = some ca) (hcb : b[j]? = some cb) (hlow : i ≤ j + max) (hhigh : j ≤ i + max)
    {rows : Rows} (hprevious : RowOk a b max i rows.previous)
    (hbefore : 0 < i → RowOk a b max (i - 1) rows.before)
    (hcurrent : Agrees max (cell rows.current j) (osa a b (i + 1) j)) :
    Agrees max (cellValue a b i j ca cb rows) (osa a b (i + 1) (j + 1)) := by
  obtain ⟨hi, -⟩ := List.getElem?_eq_some_iff.mp hca
  obtain ⟨hj, -⟩ := List.getElem?_eq_some_iff.mp hcb
  have htop : ∀ p q, p ≤ a.length → q ≤ b.length → osa a b p q + 1 ≤ U64_MAX := by
    intro p q hp hq
    have := @osa_le_add _ a b _ p q
    rw [U64_MAX]
    omega
  have hdelete := (hprevious.cells (j + 1) hj (by omega) (by omega)).saturatingAdd
    (htop i (j + 1) (by omega) hj)
  have hinsert := hcurrent.saturatingAdd (htop (i + 1) j hi (by omega))
  have hcost : (if ca ≠ cb then 1 else 0) = if a[i]? = b[j]? then 0 else 1 := by
    simp only [hca, hcb, Option.some.injEq, ne_eq, ite_not]
  have hsubstitute : Agrees max (saturatingAdd (cell rows.previous j) (if ca ≠ cb then 1 else 0))
      (osa a b i j + if a[i]? = b[j]? then 0 else 1) := by
    rw [← hcost]
    refine (hprevious.cells j (by omega) (by omega) (by omega)).saturatingAdd ?_
    have := htop i j (by omega) (by omega)
    split <;> omega
  have hedits := (hdelete.min hinsert).min hsubstitute
  rw [osa_succ, cellValue]
  have hswap : (0 < i ∧ 0 < j ∧ a[i - 1]? = some cb ∧ b[j - 1]? = some ca) ↔
      (0 < i ∧ 0 < j ∧ a[i - 1]? = b[j]? ∧ b[j - 1]? = a[i]?) := by
    rw [hca, hcb]
  by_cases hcan : 0 < i ∧ 0 < j ∧ a[i - 1]? = b[j]? ∧ b[j - 1]? = a[i]?
  · have hcell := (hbefore hcan.1).cells (j - 1) (by omega) (by omega) (by omega)
    have htranspose := hcell.saturatingAdd
      (htop (i - 1) (j - 1) (by omega) (by omega))
    rw [if_pos hcan, if_pos (hswap.mpr hcan)]
    exact hedits.min htranspose
  · rw [if_neg hcan, if_neg fun h => hcan (hswap.mp h)]
    exact hedits

theorem cells_ok (ha : a.length < 2 ^ 63) (hb : b.length < 2 ^ 63) {high : ℕ}
    (hca : a[i]? = some ca) (hhigh : high ≤ i + 1 + max) (hle : high ≤ b.length) (n : ℕ) :
    ∀ (j : ℕ) (s : Rows × ℕ), j + n = high → i - max ≤ j →
      CellsOk a b max i (i - max) high j s →
      CellsOk a b max i (i - max) high high
        (((b.zipIdx.take high).drop j).foldl (cellStep a b i ca) s) := by
  induction n with
  | zero =>
    intro j s hj _ hs
    obtain rfl : j = high := hj
    rw [List.drop_of_length_le (List.length_take_le _ _)]
    exact hs
  | succ n ih =>
    intro j s hj hlow hs
    have hlt : j < b.length := by omega
    have hcons : (b.zipIdx.take high).drop j =
        (b[j], j) :: (b.zipIdx.take high).drop (j + 1) := by
      rw [List.drop_eq_getElem_cons (by rw [List.length_take, List.length_zipIdx]; omega),
        List.getElem_take, List.getElem_zipIdx, Nat.zero_add]
    rw [hcons, List.foldl_cons]
    refine ih (j + 1) _ (by omega) (by omega) ?_
    have hvalue := cellValue_agrees ha hb hca (List.getElem?_eq_getElem hlt) (by omega)
      (by omega) hs.previous hs.before (hs.cells j hlt.le hlow (.inl le_rfl))
    refine ⟨hs.previous, hs.before, ⟨hs.length.1, ?_⟩, ?_, ?_⟩
    · rw [cellStep, List.length_set]
      exact hs.length.2
    · intro c hc hlow' hc'
      rw [cellStep]
      by_cases heq : j + 1 = c
      · subst heq
        rw [cell_set_self (by rw [hs.length.2]; omega)]
        exact hvalue
      · rw [cell_set_ne heq]
        exact hs.cells c hc hlow' (by omega)
    · rw [cellStep, min_le_iff, hs.least, hvalue.le_iff]
      constructor
      · rintro (⟨c, hlow', hc, hd⟩ | hd)
        · exact ⟨c, hlow', by omega, hd⟩
        · exact ⟨j + 1, by omega, le_rfl, hd⟩
      · rintro ⟨c, hlow', hc, hd⟩
        rcases Nat.lt_or_eq_of_le hc with hc | rfl
        · exact .inl ⟨c, hlow', by omega, hd⟩
        · exact .inr hd

theorem far_of_lt {p q : ℕ} (h : q + max < p ∨ p + max < q) : max < osa a b p q := by
  have := @le_osa_add _ a b _ _ p q rfl
  omega

/-- **A row is computed from the rows before it.**  The third row, which becomes the row
under way, may hold anything. -/
theorem rowStep_ok (ha : a.length < 2 ^ 63) (hb : b.length < 2 ^ 63)
    (hdiff : a.length ≤ b.length + max) (hca : a[i]? = some ca) {rows : Rows}
    (hrows : RowsOk a b max i rows) :
    (∀ rows', rowStep a b max rows (ca, i) = .ok rows' → RowsOk a b max (i + 1) rows') ∧
    ∀ rows', rowStep a b max rows (ca, i) = .error rows' →
      ∀ c ≤ b.length, max < osa a b (i + 1) c := by
  obtain ⟨hi, -⟩ := List.getElem?_eq_some_iff.mp hca
  have hfar : FAR = 2 ^ 63 - 1 := by decide
  have hrow : saturatingAdd i 1 = i + 1 := Nat.min_eq_left (by rw [U64_MAX]; omega)
  have hhigh : min (saturatingAdd (i + 1) max) b.length = min (i + 1 + max) b.length := by
    rw [saturatingAdd, U64_MAX]
    omega
  obtain ⟨high, hhigh'⟩ : ∃ high, high = min (i + 1 + max) b.length := ⟨_, rfl⟩
  have hnext : saturatingAdd high 1 = high + 1 := Nat.min_eq_left (by rw [U64_MAX]; omega)
  have hlow : i - max ≤ high := by omega
  -- the cell left of the band
  have hedge : Agrees max (if i - max = 0 ∧ i + 1 ≤ max then i + 1 else FAR)
      (osa a b (i + 1) (i - max)) := by
    split
    · next h =>
      rw [h.1, osa_zero_right]
      exact agrees_self _
    · next h =>
      refine agrees_far ?_ (by omega)
      by_cases hzero : i - max = 0
      · rw [hzero, osa_zero_right]
        omega
      · exact far_of_lt (by omega)
  have hstart : CellsOk a b max i (i - max) high (i - max)
      ({ rows with current := (rows.current.set (i - max)
        (if i - max = 0 ∧ i + 1 ≤ max then i + 1 else FAR)).set (high + 1) FAR },
        if i - max = 0 ∧ i + 1 ≤ max then i + 1 else FAR) := by
    refine ⟨hrows.previous, hrows.before, ⟨hrows.length.1, ?_⟩, ?_, ?_⟩
    · rw [List.length_set, List.length_set]
      exact hrows.length.2
    · intro c hc hlow' hc'
      show Agrees max (cell (List.set _ _ _) c) _
      by_cases hright : high + 1 = c
      · subst hright
        rw [cell_set_self (by rw [List.length_set, hrows.length.2]; omega)]
        exact agrees_far (far_of_lt (by omega)) (by omega)
      · obtain rfl : i - max = c := by omega
        rw [cell_set_ne hright, cell_set_self (by rw [hrows.length.2]; omega)]
        exact hedge
    · rw [hedge.le_iff]
      constructor
      · exact fun h => ⟨_, le_rfl, le_rfl, h⟩
      · rintro ⟨c, hc, hc', h⟩
        rwa [Nat.le_antisymm hc hc']
  have hcells := cells_ok ha hb hca (by omega) (by omega) (high - (i - max)) (i - max) _
    (by omega) le_rfl hstart
  rw [rowStep]
  simp only [hrow, hhigh, ← hhigh', hnext]
  obtain ⟨s, hs⟩ : ∃ s, s = ((b.zipIdx.take high).drop (i - max)).foldl (cellStep a b i ca)
      ({ rows with current := (rows.current.set (i - max)
        (if i - max = 0 ∧ i + 1 ≤ max then i + 1 else FAR)).set (high + 1) FAR },
        if i - max = 0 ∧ i + 1 ≤ max then i + 1 else FAR) := ⟨_, rfl⟩
  rw [← hs] at hcells ⊢
  constructor
  · intro rows' h
    rw [ite_error_eq_ok] at h
    obtain rfl := Except.ok.inj h.2
    refine ⟨⟨hcells.length.2, fun c hc hleft hright => ?_⟩, fun _ => hcells.previous,
      hcells.previous.length, hcells.length.1⟩
    exact hcells.cells c hc (by omega) (by omega)
  · intro rows' h c hc
    split at h
    · next hmin =>
      by_contra hd
      refine absurd (hcells.least.mpr ⟨c, ?_, ?_, Nat.le_of_not_lt hd⟩) (Nat.not_le.mpr hmin)
      · by_contra hc'
        exact hd (far_of_lt (by omega))
      · by_contra hc'
        exact hd (far_of_lt (by omega))
    · exact absurd h (by simp)

theorem rows_ok (ha : a.length < 2 ^ 63) (hb : b.length < 2 ^ 63)
    (hdiff : a.length ≤ b.length + max) (n : ℕ) : ∀ (i : ℕ) (rows : Rows), i + n = a.length →
    RowsOk a b max i rows →
    (∀ rows', (a.zipIdx.drop i).foldlM (rowStep a b max) rows = .ok rows' →
      RowsOk a b max a.length rows') ∧
    ∀ rows', (a.zipIdx.drop i).foldlM (rowStep a b max) rows = .error rows' →
      max < osa a b a.length b.length := by
  induction n with
  | zero =>
    intro i rows hi hrows
    obtain rfl : i = a.length := hi
    rw [List.drop_of_length_le (by rw [List.length_zipIdx])]
    constructor
    · intro rows' h
      obtain rfl := Except.ok.inj h
      exact hrows
    · intro rows' h
      exact absurd h (by simp [pure, Except.pure])
  | succ n ih =>
    intro i rows hi hrows
    have hlt : i < a.length := by omega
    have hcons : a.zipIdx.drop i = (a[i], i) :: a.zipIdx.drop (i + 1) := by
      rw [List.drop_eq_getElem_cons (by rw [List.length_zipIdx]; exact hlt), List.getElem_zipIdx,
        Nat.zero_add]
    obtain ⟨hok, herror⟩ := rowStep_ok ha hb hdiff (List.getElem?_eq_getElem hlt) hrows
    rw [hcons, List.foldlM_cons]
    cases hstep : rowStep a b max rows (a[i], i) with
    | ok next => exact ih (i + 1) next (by omega) (hok next hstep)
    | error last =>
      -- Every later row is out of reach as well.
      have hrows : ∀ k, i + 1 ≤ k → ∀ c ≤ b.length, max < osa a b k c := by
        intro k hk
        induction k, hk using Nat.le_induction with
        | base => exact herror last hstep
        | succ k _ ih => exact osa_row ih
      refine ⟨fun rows' h => absurd h (by simp [bind, Except.bind]), fun rows' _ => ?_⟩
      exact hrows a.length hlt b.length le_rfl

/-- **The distance, when it is at most the bound (proved).** -/
theorem boundedDistance_eq (a b : List UInt8) (max : ℕ) (rows : Rows)
    (ha : a.length < 2 ^ 63) (hb : b.length < 2 ^ 63) :
    (boundedDistance a b max rows).1 =
      if distance a b ≤ max then some (distance a b) else none := by
  have hdist := @le_osa_add _ a b _ _ a.length b.length rfl
  rw [boundedDistance, absDiff]
  by_cases hfar : max < if a.length ≤ b.length then b.length - a.length else a.length - b.length
  · rw [if_pos hfar, if_neg]
    rw [distance]
    split at hfar <;> omega
  have hdiff : a.length ≤ b.length + max ∧ b.length ≤ a.length + max := by
    split at hfar <;> omega
  have hwidth : saturatingAdd b.length 1 = b.length + 1 :=
    Nat.min_eq_left (by rw [U64_MAX]; omega)
  have hfarMax : FAR = 2 ^ 63 - 1 := by decide
  have hstart : RowsOk a b max 0 ⟨refill rows.before (b.length + 1) FAR,
      (List.range (b.length + 1)).map fun j => if j ≤ max then j else FAR,
      refill rows.current (b.length + 1) FAR⟩ := by
    refine ⟨⟨by rw [List.length_map, List.length_range], fun c hc _ _ => ?_⟩,
      fun h => absurd h (Nat.lt_irrefl 0), List.length_replicate, List.length_replicate⟩
    rw [cell, List.getElem?_map, List.getElem?_range (by omega), Option.map_some, Option.getD_some,
      osa_zero_left]
    split
    · exact agrees_self c
    · exact agrees_far (by omega) (by omega)
  obtain ⟨hok, herror⟩ := rows_ok ha hb hdiff.1 a.length 0 _ (Nat.zero_add _) hstart
  rw [if_neg hfar]
  simp only [hwidth]
  rw [List.drop_zero] at hok herror
  split
  · next rows' h =>
    have := herror rows' h
    rw [if_neg (by rw [distance]; omega)]
  · next rows' h =>
    have hrow := (hok rows' h).previous
    have hlast := hrow.cells b.length le_rfl (by omega) (by omega)
    have hget : rows'.previous.getLast? = some (cell rows'.previous b.length) := by
      rw [List.getLast?_eq_getElem?, hrow.length, Nat.add_sub_cancel, cell,
        List.getElem?_eq_getElem (by rw [hrow.length]; omega), Option.getD_some]
    show rows'.previous.getLast?.filter (· ≤ max) = _
    rw [hget, distance]
    by_cases hd : osa a b a.length b.length ≤ max
    · rw [if_pos hd, hlast.1 hd]
      simp [hd]
    · rw [if_neg hd]
      have := hlast.2 (Nat.lt_of_not_le hd)
      simp [this]

/-- One edit of two neighbours, in rows with cells from another table. -/
theorem swapped_distance : (boundedDistance (ascii "memcpy") (ascii "mempcy") 2
      ⟨[7, 7, 7], [], [0, 1]⟩).1 =
    if distance (ascii "memcpy") (ascii "mempcy") ≤ 2 then
      some (distance (ascii "memcpy") (ascii "mempcy")) else none :=
  boundedDistance_eq _ _ 2 _ (by decide) (by decide)

end Qld.Hints
