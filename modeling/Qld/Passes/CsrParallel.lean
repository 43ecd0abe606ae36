import Mathlib.Algebra.GroupWithZero.Nat
import Qld.Lib.ForkJoin
import Qld.Lib.Outcome
import Qld.Passes.Csr

/-!
# Rows built in parallel

The model of `Csr::build_parallel` of `passes/csr.rs`: the rows are counted, each is filled in
its own slot of one value list, in tasks that fork at the middle of their rows, and rows that
left a part of their slot empty are moved together in place.

* `splitRows`, `forEachRowMut` — the tasks; they also give the calls they make;
* `fillRows`, `compact`, `buildParallel` — the builder; a panic is an outcome of its own;
* `splitRows_slots` — the tasks fill every row in its own slot; `sweep_rows` —
  **proved**: the sweep leaves the rows it has yet to move alone.
-/

namespace Qld.Passes

open Qld.Lib Qld.Lib.Outcome

variable {α β : Type}

/-- Rows (plus values) below which parallel helpers stop splitting. -/
def LEAF_WEIGHT : ℕ := 4096

/-! ### The tasks -/

/-- `split_at_mut`. -/
def splitAtMut (values : List α) (mid : ℕ) : Outcome InputError (List α × List α) :=
  if mid ≤ values.length then .ok (values.take mid, values.drop mid) else .error .panic

/-- A difference of two offsets. -/
def offsetLen (offsets : List ℕ) (i j : ℕ) : Outcome InputError ℕ := do
  let stop ← orPanic offsets[j]?
  let start ← orPanic offsets[i]?
  if start ≤ stop then .ok (stop - start) else .error .panic

/-- What tasks leave: the values, the entry of each row, and the calls. -/
structure Tasks (α β : Type) where
  values : List α
  perRow : List β
  work : ForkJoin (ℕ × List α)

/-- The rows of a task that does not fork, in order. -/
def leafRows (offsets : List ℕ) (baseRow : ℕ) (f : ℕ → List α → β → List α × β) :
    ℕ → List α → List β → Outcome InputError (List α × List β × List (ℕ × List α))
  | _, rest, [] => .ok (rest, [], [])
  | row, rest, extra :: extras => do
    let len ← offsetLen offsets row (row + 1)
    let (head, tail) ← splitAtMut rest len
    let (filled, extra) := f (baseRow + row) head extra
    let (tail, extras, calls) ← leafRows offsets baseRow f (row + 1) tail extras
    .ok (filled ++ tail, extra :: extras, (baseRow + row, head) :: calls)

/-- `split_rows`. -/
def splitRows (leafWeight : ℕ) (offsets : List ℕ) (baseRow : ℕ) (values : List α)
    (perRow : List β) (f : ℕ → List α → β → List α × β) : Outcome InputError (Tasks α β) :=
  if perRow.length ≤ 1 ∨ values.length + perRow.length ≤ leafWeight then do
    let (values, perRow, calls) ← leafRows offsets baseRow f 0 values perRow
    .ok ⟨values, perRow, .leaf calls⟩
  else do
    let mid := perRow.length / 2
    let len ← offsetLen offsets 0 mid
    let (leftValues, rightValues) ← splitAtMut values len
    let left ← splitRows leafWeight (offsets.take (mid + 1)) baseRow leftValues
      (perRow.take mid) f
    let right ← splitRows leafWeight (offsets.drop mid) (baseRow + mid) rightValues
      (perRow.drop mid) f
    .ok ⟨left.values ++ right.values, left.perRow ++ right.perRow, .join left.work right.work⟩
termination_by perRow.length
decreasing_by
  · rw [List.length_take]; omega
  · rw [List.length_drop]; omega

/-- `for_each_row_mut`. -/
def forEachRowMut (leafWeight : ℕ) (offsets : List ℕ) (values : List α) (perRow : List β)
    (f : ℕ → List α → β → List α × β) : Outcome InputError (Tasks α β) :=
  splitRows leafWeight offsets 0 values perRow f

/-! ### The builder -/

/-- What fills a row: it writes to its slot, and returns how many values it wrote.  A row is
filled once, so what a row is filled with is all that a function with a state of its own can
add. -/
structure Fill (α : Type) where
  run : ℕ → List α → List α × ℕ
  length_run : ∀ row slot, (run row slot).1.length = slot.length

/-- The offsets after each row, as the lengths of the rows are added up. -/
def addLengths : List ℕ → ℕ → List ℕ → Outcome InputError (List ℕ × ℕ)
  | offsets, total, [] => .ok (offsets, total)
  | offsets, total, length :: lengths =>
    if total + length < 2 ^ 64 then
      addLengths (offsets ++ [total + length]) (total + length) lengths
    else fail (.tooLarge "row lengths")

/-- The slots of the rows after all are filled, and how many values each was given. -/
structure Filled (α : Type) where
  offsets : List ℕ
  values : List α
  lengths : List ℕ
  work : ForkJoin (ℕ × List α)

/-- Counts every row, and fills each in a slot of that many fillers. -/
def fillRows (leafWeight rows : ℕ) (filler : α) (count : ℕ → ℕ) (fill : Fill α) :
    Outcome InputError (Filled α) := do
  let lengths := (List.range rows).map count
  let (offsets, total) ← addLengths [0] 0 lengths
  let tasks ← forEachRowMut leafWeight offsets (List.replicate total filler) lengths
    fun row slot _ => ((fill.run row slot).1, min (fill.run row slot).2 slot.length)
  .ok ⟨offsets, tasks.values, tasks.perRow, tasks.work⟩

/-- `copy_within(start..stop, dest)`. -/
def copyWithin (values : List α) (start stop dest : ℕ) : Outcome InputError (List α) :=
  if start ≤ stop ∧ stop ≤ values.length ∧ dest + (stop - start) ≤ values.length then
    .ok (values.take dest ++ ((values.drop start).take (stop - start) ++
      values.drop (dest + (stop - start))))
  else .error .panic

/-- The compaction under way. -/
structure Sweep (α : Type) where
  write : ℕ
  offsets : List ℕ
  values : List α

/-- Moves a row to the end of the rows before it. -/
def compactRow (s : Sweep α) (entry : ℕ × ℕ) : Outcome InputError (Sweep α) := do
  let (written, row) := entry
  let start ← orPanic s.offsets[row]?
  let values ← copyWithin s.values start (start + written) s.write
  .ok ⟨s.write + written, s.offsets.set row s.write, values⟩

/-- Moves rows together that left a part of their slot empty. -/
def compact (rows : ℕ) (filled : Filled α) : Outcome InputError (List ℕ × List α) := do
  let bounds := filled.offsets.zip filled.offsets.tail
  if (filled.lengths.zip bounds).any fun entry => entry.1 != entry.2.2 - entry.2.1 then
    let s ← filled.lengths.zipIdx.foldlM compactRow ⟨0, filled.offsets, filled.values⟩
    if rows < s.offsets.length then
      .ok (s.offsets.set rows s.write, s.values.take s.write)
    else .error .panic
  else .ok (filled.offsets, filled.values)

/-- `Csr::build_parallel`: the two lists of the table, and the calls that were made. -/
def buildParallel (leafWeight rows : ℕ) (filler : α) (count : ℕ → ℕ) (fill : Fill α) :
    Outcome InputError (List ℕ × List α × ForkJoin (ℕ × List α)) := do
  let filled ← fillRows leafWeight rows filler count fill
  let (offsets, values) ← compact rows filled
  .ok (offsets, values, filled.work)

/-! ### What the tasks leave -/

/-- The offset table of rows that are stored one after another from `start` on. -/
def offsetsFrom (start : ℕ) (slots : List (List α)) : List ℕ :=
  Csr.starts start slots ++ [start + slots.flatten.length]

theorem offsetsFrom_cons (start : ℕ) (slot : List α) (slots : List (List α)) :
    offsetsFrom start (slot :: slots) = start :: offsetsFrom (start + slot.length) slots := by
  rw [offsetsFrom, Csr.starts, List.flatten_cons, List.length_append, offsetsFrom,
    List.cons_append, Nat.add_assoc]

theorem offsetsFrom_append (start : ℕ) (l r : List (List α)) :
    offsetsFrom start (l ++ r) =
      Csr.starts start l ++ offsetsFrom (start + l.flatten.length) r := by
  rw [offsetsFrom, Csr.starts_append, List.flatten_append, List.length_append, offsetsFrom,
    List.append_assoc, Nat.add_assoc]

theorem head_offsetsFrom (start : ℕ) (slots : List (List α)) :
    ∃ rest, offsetsFrom start slots = start :: rest := by
  cases slots with
  | nil => exact ⟨[], rfl⟩
  | cons slot slots => exact ⟨_, offsetsFrom_cons start slot slots⟩

theorem offsetsOf_eq (slots : List (List α)) : Csr.offsetsOf slots = offsetsFrom 0 slots := by
  rw [Csr.offsetsOf, offsetsFrom, Nat.zero_add]

/-- The rows after all are filled: each slot with its entry. -/
def filledSlots (f : ℕ → List α → β → List α × β) :
    ℕ → List (List α) → List β → List (List α × β)
  | row, slot :: slots, extra :: extras =>
    f row slot extra :: filledSlots f (row + 1) slots extras
  | _, _, _ => []

/-- One call for each slot. -/
def callsOf : ℕ → List (List α) → List (ℕ × List α)
  | _, [] => []
  | row, slot :: slots => (row, slot) :: callsOf (row + 1) slots

theorem callsOf_append (l r : List (List α)) : ∀ row : ℕ,
    callsOf row (l ++ r) = callsOf row l ++ callsOf (row + l.length) r := by
  induction l with
  | nil => intro row; rfl
  | cons slot l ih =>
    intro row
    rw [List.cons_append, callsOf, ih, callsOf, List.length_cons, List.cons_append,
      Nat.add_assoc, Nat.add_comm 1]

theorem filledSlots_append {f : ℕ → List α → β → List α × β} (r : List (List α)) (y : List β) :
    ∀ (l : List (List α)) (x : List β) (row : ℕ), l.length = x.length →
      filledSlots f row (l ++ r) (x ++ y) =
        filledSlots f row l x ++ filledSlots f (row + l.length) r y := by
  intro l
  induction l with
  | nil =>
    intro x row h
    rw [List.length_eq_zero_iff.mp h.symm]
    rfl
  | cons slot l ih =>
    intro x row h
    cases x with
    | nil => exact absurd h (Nat.succ_ne_zero _)
    | cons extra x =>
      rw [List.cons_append, List.cons_append, filledSlots, ih x (row + 1) (Nat.succ.inj h),
        filledSlots, List.length_cons, List.cons_append, Nat.add_assoc, Nat.add_comm 1]

theorem offsetLen_of {offsets : List ℕ} {i j start stop : ℕ} (hi : offsets[i]? = some start)
    (hj : offsets[j]? = some stop) (hle : start ≤ stop) :
    offsetLen offsets i j = .ok (stop - start) := by
  rw [offsetLen, hi, hj]
  exact if_pos hle

theorem splitAtMut_append (l r : List α) : splitAtMut (l ++ r) l.length = .ok (l, r) := by
  rw [splitAtMut, if_pos (by rw [List.length_append]; omega), List.take_left, List.drop_left]

/-- A task that does not fork fills its rows in order. -/
theorem leafRows_slots (f : ℕ → List α → β → List α × β) (baseRow : ℕ) :
    ∀ (slots : List (List α)) (extras : List β) (start : ℕ) (before : List ℕ),
      slots.length = extras.length →
      leafRows (before ++ offsetsFrom start slots) baseRow f before.length slots.flatten extras =
        .ok (((filledSlots f (baseRow + before.length) slots extras).map Prod.fst).flatten,
          (filledSlots f (baseRow + before.length) slots extras).map Prod.snd,
          callsOf (baseRow + before.length) slots) := by
  intro slots
  induction slots with
  | nil =>
    intro extras start before h
    rw [List.length_eq_zero_iff.mp h.symm]
    rfl
  | cons slot slots ih =>
    intro extras start before h
    cases extras with
    | nil => exact absurd h (Nat.succ_ne_zero _)
    | cons extra extras =>
      obtain ⟨rest, hrest⟩ := head_offsetsFrom (start + slot.length) slots
      have hlen : offsetLen (before ++ offsetsFrom start (slot :: slots)) before.length
          (before.length + 1) = .ok slot.length := by
        rw [offsetsFrom_cons, hrest]
        refine (offsetLen_of ?_ ?_ (Nat.le_add_right start slot.length)).trans ?_
        · simp
        · rw [List.getElem?_append_right (Nat.le_succ _), Nat.succ_sub (Nat.le_refl _),
            Nat.sub_self]
          rfl
        · rw [Nat.add_sub_cancel_left]
      have hnext := ih extras (start + slot.length) (before ++ [start]) (Nat.succ.inj h)
      rw [List.length_append, List.length_singleton, List.append_assoc, List.singleton_append,
        ← offsetsFrom_cons, ← Nat.add_assoc] at hnext
      rw [leafRows, List.flatten_cons]
      exact bind_eq_ok.mpr ⟨_, hlen, bind_eq_ok.mpr ⟨_, splitAtMut_append slot slots.flatten,
        bind_eq_ok.mpr ⟨_, hnext, rfl⟩⟩⟩

/-- **Tasks fill every row of theirs, however their work is divided.** -/
theorem splitRows_slots (leafWeight : ℕ) (f : ℕ → List α → β → List α × β) (rows : ℕ) :
    ∀ (slots : List (List α)) (extras : List β) (start baseRow : ℕ),
      slots.length = rows → extras.length = rows →
      ∃ work, work.calls = callsOf baseRow slots ∧
        splitRows leafWeight (offsetsFrom start slots) baseRow slots.flatten extras f =
          .ok ⟨((filledSlots f baseRow slots extras).map Prod.fst).flatten,
            (filledSlots f baseRow slots extras).map Prod.snd, work⟩ := by
  induction rows using Nat.strong_induction_on with
  | h rows ih =>
    intro slots extras start baseRow hslots hextras
    rw [splitRows]
    split
    · have hleaf := leafRows_slots f baseRow slots extras start [] (hslots.trans hextras.symm)
      exact ⟨.leaf (callsOf baseRow slots), rfl, bind_eq_ok.mpr ⟨_, hleaf, rfl⟩⟩
    · next hfork =>
      rw [not_or, not_le] at hfork
      have htwo : 1 < rows := hextras ▸ hfork.1
      -- The fork is at the middle; both halves are shorter.
      obtain ⟨mid, hmid⟩ : ∃ mid, mid = rows / 2 := ⟨_, rfl⟩
      obtain ⟨l, r, rfl, hl⟩ : ∃ l r, slots = l ++ r ∧ l.length = mid :=
        ⟨slots.take mid, slots.drop mid, (List.take_append_drop _ _).symm, by
          rw [List.length_take]; omega⟩
      obtain ⟨x, y, rfl, hx⟩ : ∃ x y, extras = x ++ y ∧ x.length = mid :=
        ⟨extras.take mid, extras.drop mid, (List.take_append_drop _ _).symm, by
          rw [List.length_take]; omega⟩
      rw [List.length_append] at hslots hextras
      obtain ⟨lw, hlw, hleft⟩ := ih mid (by omega) l x start baseRow hl hx
      obtain ⟨rw', hrw, hright⟩ := ih (rows - mid) (by omega) r y (start + l.flatten.length)
        (baseRow + mid) (by omega) (by omega)
      obtain ⟨rest, hrest⟩ := head_offsetsFrom (start + l.flatten.length) r
      have hoffsets : offsetsFrom start (l ++ r) =
          Csr.starts start l ++ offsetsFrom (start + l.flatten.length) r :=
        offsetsFrom_append start l r
      have htake : (offsetsFrom start (l ++ r)).take (mid + 1) = offsetsFrom start l := by
        rw [hoffsets, hrest, offsetsFrom, List.take_append, Csr.length_starts, hl,
          List.take_of_length_le (by rw [Csr.length_starts]; omega), Nat.add_sub_cancel_left]
        rfl
      have hdrop : (offsetsFrom start (l ++ r)).drop mid =
          offsetsFrom (start + l.flatten.length) r := by
        rw [hoffsets, List.drop_left' (by rw [Csr.length_starts, hl])]
      have hlen : offsetLen (offsetsFrom start (l ++ r)) 0 mid = .ok l.flatten.length := by
        refine (offsetLen_of ?_ ?_ (Nat.le_add_right start l.flatten.length)).trans ?_
        · obtain ⟨rest', hrest'⟩ := head_offsetsFrom start (l ++ r)
          rw [hrest']
          rfl
        · rw [hoffsets, List.getElem?_append_right (by rw [Csr.length_starts, hl]),
            Csr.length_starts, hl, Nat.sub_self, hrest]
          rfl
        · rw [Nat.add_sub_cancel_left]
      have hmid' : (x ++ y).length / 2 = mid := by
        rw [List.length_append, hextras, hmid]
      refine ⟨.join lw rw', ?_, ?_⟩
      · rw [ForkJoin.calls, hlw, hrw, callsOf_append, hl]
      · rw [filledSlots_append r y l x baseRow (hl.trans hx.symm), List.map_append,
          List.map_append, List.flatten_append, List.flatten_append, hl]
        simp only [hmid']
        refine bind_eq_ok.mpr ⟨_, hlen, bind_eq_ok.mpr ⟨_, splitAtMut_append _ _, ?_⟩⟩
        rw [htake, hdrop, List.take_left' hx, List.drop_left' hx]
        exact bind_eq_ok.mpr ⟨_, hleft, bind_eq_ok.mpr ⟨_, hright, rfl⟩⟩

theorem filledSlots_range (f : ℕ → List α → β → List α × β) (slot : ℕ → List α) (extra : ℕ → β)
    (n : ℕ) : ∀ a : ℕ,
    filledSlots f a ((List.range' a n).map slot) ((List.range' a n).map extra) =
      (List.range' a n).map fun row => f row (slot row) (extra row) := by
  induction n with
  | zero => intro a; rfl
  | succ n ih =>
    intro a
    rw [List.range'_succ, List.map_cons, List.map_cons, filledSlots, ih, List.map_cons]

theorem callsOf_range (slot : ℕ → List α) (n : ℕ) : ∀ a : ℕ,
    callsOf a ((List.range' a n).map slot) = (List.range' a n).map fun row => (row, slot row) := by
  induction n with
  | zero => intro a; rfl
  | succ n ih =>
    intro a
    rw [List.range'_succ, List.map_cons, callsOf, ih, List.map_cons]

/-! ### Counts and slots -/

theorem addLengths_ok (slots : List (List α)) : ∀ (before : List ℕ) (total : ℕ),
    total + slots.flatten.length < 2 ^ 64 →
    addLengths (before ++ [total]) total (slots.map List.length) =
      .ok (before ++ offsetsFrom total slots, total + slots.flatten.length) := by
  induction slots with
  | nil => intro before total _; rfl
  | cons slot slots ih =>
    intro before total h
    rw [List.flatten_cons, List.length_append, ← Nat.add_assoc] at h ⊢
    rw [List.map_cons, addLengths, if_pos (by omega), ih (before ++ [total]) _ h,
      offsetsFrom_cons, List.append_assoc, List.singleton_append]

variable {l r : List (List α)}

theorem starts_congr (h : l.map List.length = r.map List.length) :
    ∀ start : ℕ, Csr.starts start l = Csr.starts start r := by
  induction l generalizing r with
  | nil =>
    intro start
    rw [List.map_nil, eq_comm, List.map_eq_nil_iff] at h
    rw [h]
  | cons a l ih =>
    intro start
    cases r with
    | nil => exact absurd h (List.cons_ne_nil _ _)
    | cons b r =>
      obtain ⟨hab, hlr⟩ := List.cons.inj h
      rw [Csr.starts, Csr.starts, ih hlr, hab]

theorem offsetsOf_congr (h : l.map List.length = r.map List.length) :
    Csr.offsetsOf l = Csr.offsetsOf r := by
  rw [Csr.offsetsOf, Csr.offsetsOf, starts_congr h, List.length_flatten, List.length_flatten, h]

/-- The slot of a row, before it is filled. -/
def slotOf (filler : α) (count : ℕ → ℕ) (row : ℕ) : List α := List.replicate (count row) filler

/-- A row after it is filled, and how many values it was given. -/
def entryOf (filler : α) (count : ℕ → ℕ) (fill : Fill α) (row : ℕ) : List α × ℕ :=
  ((fill.run row (slotOf filler count row)).1,
    min (fill.run row (slotOf filler count row)).2 (count row))

theorem length_entryOf (filler : α) (count : ℕ → ℕ) (fill : Fill α) (row : ℕ) :
    (entryOf filler count fill row).1.length = count row := by
  rw [entryOf, fill.length_run, slotOf, List.length_replicate]

theorem fillRows_slots (leafWeight rows : ℕ) (filler : α) (count : ℕ → ℕ) (fill : Fill α)
    (h : ((List.range rows).map count).sum < 2 ^ 64) :
    ∃ work, work.calls = (List.range rows).map (fun row => (row, slotOf filler count row)) ∧
      fillRows leafWeight rows filler count fill =
        .ok ⟨Csr.offsetsOf (((List.range rows).map (entryOf filler count fill)).map Prod.fst),
          (((List.range rows).map (entryOf filler count fill)).map Prod.fst).flatten,
          ((List.range rows).map (entryOf filler count fill)).map Prod.snd, work⟩ := by
  obtain ⟨slots, hslots⟩ : ∃ slots, slots = (List.range rows).map (slotOf filler count) :=
    ⟨_, rfl⟩
  have hlengths : slots.map List.length = (List.range rows).map count := by
    rw [hslots, List.map_map]
    refine List.map_congr_left fun row _ => ?_
    rw [Function.comp_apply, slotOf, List.length_replicate]
  have htotal : slots.flatten.length = ((List.range rows).map count).sum := by
    rw [List.length_flatten, hlengths]
  have hflat : slots.flatten = List.replicate slots.flatten.length filler := by
    refine List.eq_replicate_of_mem fun x hx => ?_
    obtain ⟨slot, hslot, hx⟩ := List.mem_flatten.mp hx
    obtain ⟨row, _, rfl⟩ := List.mem_map.mp (hslots ▸ hslot)
    exact List.eq_of_mem_replicate hx
  have hadd := addLengths_ok slots [] 0 (by omega)
  rw [hlengths, List.nil_append, List.nil_append, Nat.zero_add] at hadd
  obtain ⟨work, hcalls, hsplit⟩ := splitRows_slots leafWeight
    (fun row slot _ => ((fill.run row slot).1, min (fill.run row slot).2 slot.length)) rows slots
    ((List.range rows).map count) 0 0 (by rw [hslots, List.length_map, List.length_range])
    (by rw [List.length_map, List.length_range])
  rw [hslots, List.range_eq_range', callsOf_range, ← List.range_eq_range'] at hcalls
  have hentries : filledSlots
      (fun row slot _ => ((fill.run row slot).1, min (fill.run row slot).2 slot.length)) 0 slots
      ((List.range rows).map count) = (List.range rows).map (entryOf filler count fill) := by
    rw [hslots, List.range_eq_range', filledSlots_range]
    refine List.map_congr_left fun row _ => ?_
    rw [entryOf, slotOf, List.length_replicate]
  have hoffsets : Csr.offsetsOf (((List.range rows).map (entryOf filler count fill)).map Prod.fst) =
      offsetsFrom 0 slots := by
    rw [← offsetsOf_eq]
    refine offsetsOf_congr ?_
    rw [hlengths, List.map_map, List.map_map]
    exact List.map_congr_left fun row _ => length_entryOf filler count fill row
  rw [hentries, hflat] at hsplit
  rw [hoffsets]
  refine ⟨work, hcalls, bind_eq_ok.mpr ⟨_, hadd, bind_eq_ok.mpr ⟨_, hsplit, rfl⟩⟩⟩

/-! ### The compaction -/

/-- What each row keeps. -/
def taken (entries : List (List α × ℕ)) : List (List α) := entries.map fun e => e.1.take e.2

/-- A row is moved down over what is no longer needed. -/
theorem copyWithin_row (done junk slot rest : List α) {written : ℕ} (h : written ≤ slot.length) :
    copyWithin (done ++ (junk ++ (slot ++ rest))) (done.length + junk.length)
        (done.length + junk.length + written) done.length =
      .ok (done ++ (slot.take written ++ ((junk ++ slot).drop written ++ rest))) := by
  rw [copyWithin, if_pos (by simp only [List.length_append]; omega), List.take_left,
    Nat.add_sub_cancel_left, ← List.drop_drop, List.drop_left, List.drop_left,
    List.take_append_of_le_length h, ← List.drop_drop, List.drop_left, ← List.append_assoc junk,
    List.drop_append_of_le_length (by rw [List.length_append]; omega)]

/-- **The sweep moves rows together, and leaves the rows it has yet to move alone.** -/
theorem sweep_rows (after : List ℕ) (rest : List α) : ∀ (entries : List (List α × ℕ))
    (before : List ℕ) (done junk : List α), (∀ e ∈ entries, e.2 ≤ e.1.length) →
    ∃ junk', ((taken entries).flatten ++ junk').length =
        (junk ++ (entries.map Prod.fst).flatten).length ∧
      ((entries.map Prod.snd).zipIdx before.length).foldlM compactRow
        ⟨done.length,
          before ++ (Csr.starts (done.length + junk.length) (entries.map Prod.fst) ++ after),
          done ++ (junk ++ ((entries.map Prod.fst).flatten ++ rest))⟩ =
        .ok ⟨done.length + (taken entries).flatten.length,
          before ++ (Csr.starts done.length (taken entries) ++ after),
          done ++ ((taken entries).flatten ++ (junk' ++ rest))⟩ := by
  intro entries
  induction entries with
  | nil =>
    intro before done junk _
    exact ⟨junk, by simp [taken], rfl⟩
  | cons e entries ih =>
    intro before done junk hle
    obtain ⟨slot, written⟩ := e
    have hwritten : written ≤ slot.length := hle _ List.mem_cons_self
    obtain ⟨junk', hlen, hrun⟩ := ih (before ++ [done.length]) (done ++ slot.take written)
      ((junk ++ slot).drop written) fun e he => hle e (List.mem_cons_of_mem _ he)
    have hshift : (done ++ slot.take written).length + ((junk ++ slot).drop written).length =
        done.length + junk.length + slot.length := by
      simp only [List.length_append, List.length_drop, List.length_take]
      omega
    rw [hshift] at hrun
    refine ⟨junk', ?_, ?_⟩
    · simp only [taken, List.map_cons, List.flatten_cons, List.length_append, List.length_drop,
        List.length_take] at hlen ⊢
      omega
    · have hstep : compactRow ⟨done.length, before ++ (Csr.starts (done.length + junk.length)
            (((slot, written) :: entries).map Prod.fst) ++ after),
          done ++ (junk ++ ((((slot, written) :: entries).map Prod.fst).flatten ++ rest))⟩
          (written, before.length) =
          .ok ⟨done.length + written,
            before ++ (done.length :: (Csr.starts (done.length + junk.length + slot.length)
              (entries.map Prod.fst) ++ after)),
            done ++ (slot.take written ++ ((junk ++ slot).drop written ++
              ((entries.map Prod.fst).flatten ++ rest)))⟩ := by
        rw [List.map_cons, Csr.starts, List.flatten_cons, List.cons_append]
        refine bind_eq_ok.mpr ⟨done.length + junk.length, ?_, ?_⟩
        · rw [List.getElem?_append_right le_rfl, Nat.sub_self]
          rfl
        · rw [List.append_assoc slot]
          refine bind_eq_ok.mpr ⟨_, copyWithin_row done junk slot _ hwritten, ?_⟩
          rw [List.set_append_right _ _ le_rfl, Nat.sub_self]
          rfl
      have hcons : (((slot, written) :: entries).map Prod.snd).zipIdx before.length =
          (written, before.length) :: (entries.map Prod.snd).zipIdx (before.length + 1) := rfl
      rw [hcons, List.foldlM_cons]
      refine bind_eq_ok.mpr ⟨_, hstep, ?_⟩
      simp only [taken, List.map_cons, List.flatten_cons, Csr.starts, List.length_append,
        List.length_singleton, List.length_take, Nat.min_eq_left hwritten, List.cons_append,
        List.append_assoc, ← Nat.add_assoc] at hrun ⊢
      exact hrun

/-- No row is short when every slot is as long as what was written to it. -/
theorem short_eq_false (entries : List (List α × ℕ)) : ∀ start : ℕ,
    (((entries.map Prod.snd).zip ((offsetsFrom start (entries.map Prod.fst)).zip
      (offsetsFrom start (entries.map Prod.fst)).tail)).any
        fun entry => entry.1 != entry.2.2 - entry.2.1) = false →
    taken entries = entries.map Prod.fst := by
  induction entries with
  | nil => intro _ _; rfl
  | cons e entries ih =>
    intro start h
    obtain ⟨rest, hrest⟩ := head_offsetsFrom (start + e.1.length) (entries.map Prod.fst)
    rw [List.map_cons, List.map_cons, offsetsFrom_cons, List.tail_cons] at h
    rw [hrest, List.zip_cons_cons, List.zip_cons_cons, List.any_cons, Bool.or_eq_false_iff] at h
    obtain ⟨hfull, h⟩ := h
    have htail := ih (start + e.1.length) (by rw [hrest]; exact h)
    rw [Nat.add_sub_cancel_left, bne_eq_false_iff_eq] at hfull
    have hfull : e.2 = e.1.length := hfull
    rw [taken, List.map_cons, List.map_cons, hfull, List.take_length]
    exact congrArg _ htail

variable {entries : List (List α × ℕ)}

theorem compact_entries {rows : ℕ} (work : ForkJoin (ℕ × List α)) (hrows : entries.length = rows)
    (hle : ∀ e ∈ entries, e.2 ≤ e.1.length) :
    compact rows ⟨Csr.offsetsOf (entries.map Prod.fst), (entries.map Prod.fst).flatten,
        entries.map Prod.snd, work⟩ =
      .ok (Csr.offsetsOf (taken entries), (taken entries).flatten) := by
  rw [compact]
  split
  · obtain ⟨junk, _, hrun⟩ := sweep_rows [(entries.map Prod.fst).flatten.length] [] entries [] []
      [] hle
    simp only [List.nil_append, List.length_nil, Nat.add_zero, List.append_nil, Nat.zero_add]
      at hrun
    have hlen : (Csr.starts 0 (taken entries)).length = rows := by
      rw [Csr.length_starts, taken, List.length_map, hrows]
    refine bind_eq_ok.mpr ⟨_, hrun, ?_⟩
    rw [if_pos (by rw [List.length_append, hlen]; exact Nat.lt_succ_self rows),
      List.set_append_right _ _ hlen.le, hlen, Nat.sub_self, List.take_left]
    rfl
  · next hshort =>
    rw [Bool.not_eq_true, offsetsOf_eq] at hshort
    rw [short_eq_false entries 0 hshort]

/-- Before row `k` is moved, what was moved ends by its start, and from its start on every value
is as it was. -/
theorem sweep_before (hle : ∀ e ∈ entries, e.2 ≤ e.1.length) {k : ℕ} (hk : k ≤ entries.length) :
    ∃ s start, ((entries.map Prod.snd).zipIdx.take k).foldlM compactRow
        ⟨0, Csr.offsetsOf (entries.map Prod.fst), (entries.map Prod.fst).flatten⟩ = .ok s ∧
      (Csr.offsetsOf (entries.map Prod.fst))[k]? = some start ∧ s.offsets[k]? = some start ∧
      s.write ≤ start ∧ s.values.drop start = (entries.map Prod.fst).flatten.drop start := by
  obtain ⟨l, r, rfl, hl⟩ : ∃ l r, entries = l ++ r ∧ l.length = k :=
    ⟨entries.take k, entries.drop k, (List.take_append_drop _ _).symm, by
      rw [List.length_take]; omega⟩
  obtain ⟨junk, hlen, hrun⟩ := sweep_rows (offsetsFrom (l.map Prod.fst).flatten.length
    (r.map Prod.fst)) (r.map Prod.fst).flatten l [] [] []
    fun e he => hle e (List.mem_append_left r he)
  simp only [List.nil_append, List.length_nil, Nat.add_zero, Nat.zero_add] at hrun hlen
  have hoffsets : Csr.offsetsOf ((l ++ r).map Prod.fst) = Csr.starts 0 (l.map Prod.fst) ++
      offsetsFrom (l.map Prod.fst).flatten.length (r.map Prod.fst) := by
    rw [offsetsOf_eq, List.map_append, offsetsFrom_append, Nat.zero_add]
  have hvalues : ((l ++ r).map Prod.fst).flatten =
      (l.map Prod.fst).flatten ++ (r.map Prod.fst).flatten := by
    rw [List.map_append, List.flatten_append]
  have htake : ((l ++ r).map Prod.snd).zipIdx.take k = (l.map Prod.snd).zipIdx := by
    rw [List.map_append, List.zipIdx_append, List.take_left']
    rw [List.length_zipIdx, List.length_map, hl]
  obtain ⟨rest, hrest⟩ := head_offsetsFrom (l.map Prod.fst).flatten.length (r.map Prod.fst)
  rw [List.length_append] at hlen
  refine ⟨_, (l.map Prod.fst).flatten.length, by rw [htake, hoffsets, hvalues]; exact hrun, ?_, ?_,
    ?_, ?_⟩
  · rw [hoffsets, List.getElem?_append_right (by rw [Csr.length_starts, List.length_map, hl]),
      Csr.length_starts, List.length_map, hl, Nat.sub_self, hrest]
    rfl
  · have htaken : (taken l).length = k := by rw [taken, List.length_map, hl]
    rw [List.getElem?_append_right (by rw [Csr.length_starts, htaken]), Csr.length_starts, htaken,
      Nat.sub_self, hrest]
    rfl
  · show (taken l).flatten.length ≤ _
    omega
  · rw [hvalues, List.drop_left, ← List.append_assoc, List.drop_left' (by
      rw [List.length_append]; exact hlen)]

/-- **Rows that are built in parallel are what was filled, in whatever order the tasks run, and the
builder that sorts pairs gives the same table (proved).** -/
theorem buildParallel_rows (leafWeight rows : ℕ) (filler : α) (count : ℕ → ℕ) (fill : Fill α)
    (hsum : ((List.range rows).map count).sum < 2 ^ 64) :
    ∃ (filled : Filled α) (c : Csr α),
      fillRows leafWeight rows filler count fill = .ok filled ∧
      buildParallel leafWeight rows filler count fill = .ok (c.offsets, c.values, filled.work) ∧
      (∀ calls, filled.work.Runs calls → calls.Perm
        ((List.range rows).map fun row => (row, List.replicate (count row) filler))) ∧
      filled.work.Runs ((List.range rows).map fun row => (row, List.replicate (count row) filler)) ∧
      c.rows = rows ∧
      (∀ i < rows, c.row i = (fill.run i (List.replicate (count i) filler)).1.take
        (min (fill.run i (List.replicate (count i) filler)).2 (count i))) ∧
      (∀ k < rows, ∃ s start, (filled.lengths.zipIdx.take k).foldlM compactRow
          ⟨0, filled.offsets, filled.values⟩ = .ok s ∧
        filled.offsets[k]? = some start ∧ s.offsets[k]? = some start ∧ s.write ≤ start ∧
        s.values.drop start = filled.values.drop start) ∧
      ∀ pairs : List (ℕ × α), (∀ pair ∈ pairs, pair.1 < rows) →
        (∀ i < rows, (pairs.filter fun x => x.1 == i).map Prod.snd = c.row i) →
        (CsrBuilder.mk rows pairs).build = .ok c := by
  obtain ⟨entries, hentries⟩ : ∃ entries,
    entries = (List.range rows).map (entryOf filler count fill) := ⟨_, rfl⟩
  obtain ⟨work, hcalls, hfill⟩ := fillRows_slots leafWeight rows filler count fill hsum
  rw [← hentries] at hfill
  have hlen : entries.length = rows := by rw [hentries, List.length_map, List.length_range]
  have hle : ∀ e ∈ entries, e.2 ≤ e.1.length := by
    intro e he
    obtain ⟨row, _, rfl⟩ := List.mem_map.mp (hentries ▸ he)
    rw [length_entryOf]
    exact Nat.min_le_right _ _
  have hrows : (taken entries).length = rows := by rw [taken, List.length_map, hlen]
  have hrow : ∀ i < rows, (Csr.ofRows (taken entries)).row i =
      (fill.run i (List.replicate (count i) filler)).1.take
        (min (fill.run i (List.replicate (count i) filler)).2 (count i)) := by
    intro i hi
    rw [Csr.row_ofRows (hrows.symm ▸ hi)]
    simp only [taken, hentries, List.map_map, List.getElem_map, List.getElem_range,
      Function.comp_apply, entryOf, slotOf]
  refine ⟨_, Csr.ofRows (taken entries), hfill, ?_, ?_, ?_, (Csr.rows_ofRows _).trans hrows, hrow,
    ?_, ?_⟩
  · exact bind_eq_ok.mpr ⟨_, hfill, bind_eq_ok.mpr ⟨_, compact_entries work hlen hle, rfl⟩⟩
  · intro calls hrun
    exact hrun.perm.trans (List.Perm.of_eq hcalls)
  · exact Eq.subst (motive := fun calls => work.Runs calls) hcalls work.runs_calls
  · intro k hk
    exact sweep_before hle (hk.trans_eq hlen.symm).le
  · intro pairs hrange hpairs
    exact CsrBuilder.build_eq ((Csr.rows_ofRows _).trans hrows) hrange hpairs

/-- A row that reports more than its slot holds, after one that leaves a part of it empty. -/
def twoRows : Fill ℕ where
  run row slot := (slot.set 0 (row + 5), 1 + 8 * row)
  length_run _ _ := List.length_set

theorem twoRows_built : ∃ (c : Csr ℕ) (work : ForkJoin (ℕ × List ℕ)),
    buildParallel LEAF_WEIGHT 2 0 (fun row => row + 2) twoRows = .ok (c.offsets, c.values, work) ∧
    (CsrBuilder.mk 2 [(1, 6), (0, 5), (1, 0), (1, 0)]).build = .ok c ∧
    c.rows = 2 ∧ c.row 0 = [5] ∧ c.row 1 = [6, 0, 0] := by
  obtain ⟨filled, c, -, hbuilt, -, -, hrows, hrow, -, hbuilder⟩ :=
    buildParallel_rows LEAF_WEIGHT 2 0 (fun row => row + 2) twoRows (by decide)
  have hzero : c.row 0 = [5] := hrow 0 (by decide)
  have hone : c.row 1 = [6, 0, 0] := hrow 1 (by decide)
  refine ⟨c, filled.work, hbuilt, hbuilder _ (by decide) fun i hi => ?_, hrows, hzero, hone⟩
  rcases Nat.lt_succ_iff_lt_or_eq.mp hi with hi | rfl
  · rw [Nat.lt_one_iff.mp hi]
    exact hzero.symm
  · exact hone.symm

end Qld.Passes
