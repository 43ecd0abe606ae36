import Mathlib.Data.List.Basic
import Mathlib.Order.Nat

/-!
# Alignments of two sequences

The cost of turning one sequence into another by insertions, deletions, substitutions and
transpositions of neighbours, where no element is edited twice.

* `osa` — the least cost by dynamic programming, on prefixes;
* `le_osa_add` — prefixes of different lengths are far apart; `osa_row` — a row of the table that
  is far throughout has only such rows behind it.
-/

namespace Qld.Lib

variable {α : Type*}

variable {a b : List α}

variable [DecidableEq α]

/-- The table of least costs, for the first `i` elements and the first `j`. -/
def osa (a b : List α) : ℕ → ℕ → ℕ
  | 0, j => j
  | i + 1, 0 => i + 1
  | i + 1, j + 1 =>
    let edits := min (min (osa a b i (j + 1) + 1) (osa a b (i + 1) j + 1))
      (osa a b i j + if a[i]? = b[j]? then 0 else 1)
    if 0 < i ∧ 0 < j ∧ a[i - 1]? = b[j]? ∧ b[j - 1]? = a[i]? then
      min edits (osa a b (i - 1) (j - 1) + 1)
    else edits
termination_by i j => i + j

/-- The optimal-string-alignment distance. -/
def distance (a b : List α) : ℕ := osa a b a.length b.length

theorem osa_zero_left (j : ℕ) : osa a b 0 j = j := by rw [osa]

theorem osa_zero_right (i : ℕ) : osa a b i 0 = i := by
  cases i with
  | zero => rw [osa]
  | succ i => rw [osa]

theorem osa_succ (i j : ℕ) : osa a b (i + 1) (j + 1) =
    (if 0 < i ∧ 0 < j ∧ a[i - 1]? = b[j]? ∧ b[j - 1]? = a[i]? then
      min (min (min (osa a b i (j + 1) + 1) (osa a b (i + 1) j + 1))
        (osa a b i j + if a[i]? = b[j]? then 0 else 1)) (osa a b (i - 1) (j - 1) + 1)
    else min (min (osa a b i (j + 1) + 1) (osa a b (i + 1) j + 1))
      (osa a b i j + if a[i]? = b[j]? then 0 else 1)) := by
  rw [osa]

theorem osa_diag (i j : ℕ) : osa a b (i + 1) (j + 1) ≤ osa a b i j + 1 := by
  rw [osa_succ]
  split <;> split <;> omega

theorem osa_le_delete (i j : ℕ) : osa a b (i + 1) j ≤ osa a b i j + 1 := by
  cases j with
  | zero => exact Nat.le_of_eq (by rw [osa_zero_right, osa_zero_right])
  | succ j =>
    rw [osa_succ]
    split <;> omega

/-- What is known of a cell from what is known of the cells it is computed from. -/
theorem osa_cases (i j : ℕ) :
    osa a b (i + 1) (j + 1) = osa a b i (j + 1) + 1 ∨
    osa a b (i + 1) (j + 1) = osa a b (i + 1) j + 1 ∨
    (a[i]? = b[j]? ∧ osa a b (i + 1) (j + 1) = osa a b i j) ∨
    (a[i]? ≠ b[j]? ∧ osa a b (i + 1) (j + 1) = osa a b i j + 1) ∨
    (0 < i ∧ 0 < j ∧ a[i - 1]? = b[j]? ∧ b[j - 1]? = a[i]? ∧
      osa a b (i + 1) (j + 1) = osa a b (i - 1) (j - 1) + 1) := by
  rw [osa_succ]
  split
  · next h =>
    obtain ⟨hi, hj, hab, hba⟩ := h
    split <;> rename_i hkeep <;> simp only [hi, hj, hab, hba, hkeep, true_and, not_true,
      not_false_iff, false_and, false_or, ne_eq] <;> omega
  · split <;> rename_i hkeep <;> simp only [hkeep, true_and, not_true, not_false_iff, false_and,
      false_or, ne_eq] <;> omega

/-! ### Rows and diagonals -/

theorem osa_le_add (i j : ℕ) : osa a b i j ≤ i + j := by
  induction i with
  | zero => exact Nat.le_of_eq (by rw [osa_zero_left, Nat.zero_add])
  | succ i ih =>
    have := @osa_le_delete _ a b _ i j
    omega

/-- Prefixes of different lengths are at least as far apart as their lengths. -/
theorem le_osa_add (n : ℕ) : ∀ i j : ℕ, i + j = n →
    i ≤ osa a b i j + j ∧ j ≤ osa a b i j + i := by
  induction n using Nat.strongRecOn with
  | ind n ih =>
    intro i j hn
    cases i with
    | zero =>
      rw [osa_zero_left]
      omega
    | succ i =>
      cases j with
      | zero =>
        rw [osa_zero_right]
        omega
      | succ j =>
        rcases @osa_cases _ a b _ i j with h | h | ⟨-, h⟩ | ⟨-, h⟩ | ⟨hi, hj, -, -, h⟩
        · have := ih (i + (j + 1)) (by omega) i (j + 1) rfl
          omega
        · have := ih (i + 1 + j) (by omega) (i + 1) j rfl
          omega
        · have := ih (i + j) (by omega) i j rfl
          omega
        · have := ih (i + j) (by omega) i j rfl
          omega
        · have := ih (i - 1 + (j - 1)) (by omega) (i - 1) (j - 1) rfl
          omega

/-- **Behind a row that is far throughout, every row is.** -/
theorem osa_row {m i n : ℕ} (h : ∀ j ≤ n, m < osa a b i j) : ∀ j ≤ n, m < osa a b (i + 1) j := by
  intro j
  induction j with
  | zero =>
    intro hj
    have := h 0 hj
    rw [osa_zero_right] at this ⊢
    omega
  | succ j ih =>
    intro hj
    have hup := h (j + 1) hj
    have hdiag := h j (by omega)
    rcases @osa_cases _ a b _ i j with h | h | ⟨-, h⟩ | ⟨-, h⟩ | ⟨hi', hj', -, -, h⟩
    · omega
    · have := ih (by omega)
      omega
    · omega
    · omega
    · -- The cell two rows back is at most one below the one on its diagonal.
      obtain ⟨p, rfl⟩ : ∃ p, i = p + 1 := ⟨i - 1, by omega⟩
      obtain ⟨q, rfl⟩ : ∃ q, j = q + 1 := ⟨j - 1, by omega⟩
      have := @osa_diag _ a b _ p q
      rw [Nat.add_sub_cancel, Nat.add_sub_cancel] at h
      omega

end Qld.Lib
