import Mathlib.Data.List.Basic

/-!
# Cells

A mutable array as a value: a default and the writes since.  Reading a cell that was never
written gives the default, so no read or write is out of range.

* `Cells.get`, `Cells.set` — one cell; `Cells.get_set` reads a cell after a write;
* `Cells.toList` — the first `n` cells.
-/

namespace Qld.Lib

/-- An array of cells: the latest write to a cell counts. -/
structure Cells (α : Type*) where
  default : α
  writes : List (ℕ × α)

namespace Cells

variable {α : Type*}

/-- Cells that all hold `x`. -/
def const (x : α) : Cells α := ⟨x, []⟩

/-- Reads a cell. -/
def get (a : Cells α) (i : ℕ) : α := (a.writes.lookup i).getD a.default

/-- Writes a cell. -/
def set (a : Cells α) (i : ℕ) (x : α) : Cells α := ⟨a.default, (i, x) :: a.writes⟩

/-- The first `n` cells. -/
def toList (a : Cells α) (n : ℕ) : List α := (List.range n).map a.get

@[simp] theorem get_const (x : α) (i : ℕ) : (const x).get i = x := rfl

theorem get_set (a : Cells α) (i : ℕ) (x : α) (j : ℕ) :
    (a.set i x).get j = if j = i then x else a.get j := by
  unfold get set
  rw [List.lookup_cons]
  by_cases h : j = i
  · simp [h]
  · rw [if_neg h, beq_false_of_ne h]

@[simp] theorem get_set_self (a : Cells α) (i : ℕ) (x : α) : (a.set i x).get i = x := by
  rw [get_set, if_pos rfl]

theorem get_set_of_ne (a : Cells α) {i j : ℕ} (h : j ≠ i) (x : α) :
    (a.set i x).get j = a.get j := by
  rw [get_set, if_neg h]

end Cells

end Qld.Lib
