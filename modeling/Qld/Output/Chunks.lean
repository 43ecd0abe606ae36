import Qld.Elf.Word
import Qld.Lib.Except

/-!
# Chunks of an output file

* `ChunkRange` — a part of the file; `validateLayout` — ranges in order, apart and inside the file;
* `splitChunks` — the slices that the writers of the chunks get;
* `validateLayout_ok` — what an accepted layout is;
* `splitChunks_of_laid` — an accepted layout is split at its ranges.
-/

namespace Qld.Output

open Qld.Lib
open Qld.Lib (checkedAdd saturatingAdd U64_MAX)

/-- A part of an output file. -/
structure ChunkRange where
  offset : ℕ
  size : ℕ
  deriving DecidableEq, Repr

/-- One past the last byte. -/
def ChunkRange.stop (range : ChunkRange) : Option ℕ := checkedAdd range.offset range.size

/-- Why a chunk layout could not be split. -/
inductive LayoutError where
  | outOfBounds (index : ℕ) (range : ChunkRange) (len : ℕ)
  | unsorted (index : ℕ) (range : ChunkRange) (previousOffset : ℕ)
  | overlap (index : ℕ) (range : ChunkRange) (previousEnd : ℕ)
  deriving DecidableEq, Repr

/-- The checks from chunk `index` on, after `previous`. -/
def validateFrom (len : ℕ) : (index : ℕ) → (previous : ChunkRange) → (previousEnd : ℕ) →
    List ChunkRange → Except LayoutError Unit
  | _, _, _, [] => .ok ()
  | index, previous, previousEnd, range :: rest =>
    match range.stop.filter (· ≤ len) with
    | none => .error (.outOfBounds index range len)
    | some stop =>
      if index ≠ 0 ∧ range.offset < previous.offset then
        .error (.unsorted index range previous.offset)
      else if index ≠ 0 ∧ range.offset < previousEnd then
        .error (.overlap index range previousEnd)
      else validateFrom len (index + 1) range stop rest

/-- Checks that the ranges are sorted, apart and inside a buffer of `len` bytes. -/
def validateLayout (ranges : List ChunkRange) (len : ℕ) : Except LayoutError Unit :=
  validateFrom len 0 ⟨0, 0⟩ 0 ranges

/-- The slices from chunk `index` on, of the `rest` bytes from `cursor` on: starts and sizes. -/
def splitFrom (len : ℕ) : (index cursor rest : ℕ) → List ChunkRange →
    Except LayoutError (List (ℕ × ℕ))
  | _, _, _, [] => .ok []
  | index, cursor, rest, range :: ranges =>
    if range.offset < cursor then .error (.outOfBounds index range len)
    else
      let gap := range.offset - cursor
      if rest < gap then .error (.outOfBounds index range len)
      else if rest - gap < range.size then .error (.outOfBounds index range len)
      else
        match range.stop with
        | none => .error (.outOfBounds index range len)
        | some stop => do
          let slices ← splitFrom len (index + 1) stop (rest - gap - range.size) ranges
          .ok ((cursor + gap, range.size) :: slices)

/-- Splits a buffer of `len` bytes into one slice a range. -/
def splitChunks (len : ℕ) (ranges : List ChunkRange) : Except LayoutError (List (ℕ × ℕ)) := do
  validateLayout ranges len
  splitFrom len 0 0 len ranges

/-! ### Accepted layouts -/

/-- Ranges in order and apart, between two positions. -/
def LaidOut : (low high : ℕ) → List ChunkRange → Prop
  | low, high, [] => low ≤ high
  | low, high, range :: ranges =>
    low ≤ range.offset ∧ LaidOut (range.offset + range.size) high ranges

variable {ranges : List ChunkRange}

theorem LaidOut.le {high : ℕ} :
    ∀ {low : ℕ}, LaidOut low high ranges → low ≤ high := by
  induction ranges with
  | nil => exact fun h => h
  | cons range ranges ih =>
    intro low h
    have := ih h.2
    have := h.1
    omega

theorem LaidOut.mono {low low' high : ℕ} (h : LaidOut low high ranges) (hle : low' ≤ low) :
    LaidOut low' high ranges := by
  cases ranges with
  | nil => exact hle.trans h
  | cons range ranges => exact ⟨hle.trans h.1, h.2⟩

variable {len : ℕ}

theorem validateFrom_ok (hlen : len < 2 ^ 64) (ranges : List ChunkRange) :
    ∀ (index : ℕ) (previous : ChunkRange) (previousEnd : ℕ),
      previousEnd = previous.offset + previous.size → previousEnd ≤ len →
      (index = 0 → previousEnd = 0) →
      (validateFrom len index previous previousEnd ranges = .ok () ↔
        LaidOut previousEnd len ranges) := by
  induction ranges with
  | nil => exact fun _ _ _ _ hle _ => ⟨fun _ => hle, fun _ => rfl⟩
  | cons range ranges ih =>
    intro index previous previousEnd hprevious hle hfirst
    rw [validateFrom, ChunkRange.stop, checkedAdd, LaidOut]
    by_cases hfits : range.offset + range.size ≤ len
    · rw [if_pos (by omega), Option.filter_some, if_pos (by simpa using hfits)]
      simp only
      by_cases hsorted : index ≠ 0 ∧ range.offset < previous.offset
      · rw [if_pos hsorted]
        exact ⟨by simp, fun h => by have := h.1; omega⟩
      · rw [if_neg hsorted]
        by_cases hapart : index ≠ 0 ∧ range.offset < previousEnd
        · rw [if_pos hapart]
          exact ⟨by simp, fun h => by have := h.1; omega⟩
        · rw [if_neg hapart, ih _ _ _ rfl hfits fun h => absurd h (Nat.succ_ne_zero index)]
          refine ⟨fun h => ⟨?_, h⟩, fun h => h.2⟩
          rcases Nat.eq_zero_or_pos index with hzero | hpos
          · rw [hfirst hzero]
            exact Nat.zero_le _
          · exact Nat.le_of_not_lt fun hlt => hapart ⟨by omega, hlt⟩
    · have hnone : ((if range.offset + range.size < 2 ^ 64 then some (range.offset + range.size)
          else none).filter (· ≤ len)) = none := by
        split
        · rw [Option.filter_some, if_neg (by simpa using hfits)]
        · rfl
      rw [hnone]
      exact ⟨by simp, fun h => absurd h.2.le hfits⟩

/-- **What an accepted layout is.** -/
theorem validateLayout_ok (hlen : len < 2 ^ 64) :
    validateLayout ranges len = .ok () ↔ LaidOut 0 len ranges :=
  validateFrom_ok hlen ranges 0 ⟨0, 0⟩ 0 rfl (Nat.zero_le len) fun _ => rfl

theorem splitFrom_of_laid (hlen : len < 2 ^ 64) (ranges : List ChunkRange) :
    ∀ (index cursor : ℕ), LaidOut cursor len ranges →
      splitFrom len index cursor (len - cursor) ranges =
        .ok (ranges.map fun range => (range.offset, range.size)) := by
  induction ranges with
  | nil => exact fun _ _ _ => rfl
  | cons range ranges ih =>
    intro index cursor h
    have hle := h.2.le
    have hlow := h.1
    have hrest : len - cursor - (range.offset - cursor) - range.size =
        len - (range.offset + range.size) := by
      omega
    rw [splitFrom, if_neg (Nat.not_lt_of_le h.1)]
    simp only
    rw [if_neg (by omega), if_neg (by omega), ChunkRange.stop, checkedAdd, if_pos (by omega), hrest]
    simp only [ih _ _ h.2, Nat.add_sub_cancel' h.1]
    rfl

/-- **An accepted layout is split at its ranges.** -/
theorem splitChunks_of_laid (hlen : len < 2 ^ 64) (h : LaidOut 0 len ranges) :
    splitChunks len ranges = .ok (ranges.map fun range => (range.offset, range.size)) := by
  rw [splitChunks, (validateLayout_ok hlen).mpr h]
  exact splitFrom_of_laid hlen ranges 0 0 h

end Qld.Output
