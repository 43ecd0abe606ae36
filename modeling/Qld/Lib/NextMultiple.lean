import Mathlib.Algebra.GroupWithZero.Nat
import Mathlib.Algebra.Order.Group.Nat

/-!
# Rounding up to a multiple

* `nextMultiple` — the first multiple at or after a position;
* `nextMultiple_eq` — what rounds up so is the first multiple;
* `nextMultiple_add` — rounding moves with multiples of the alignment.
-/

namespace Qld.Lib

/-- The first multiple of `alignment` at or after `position`. -/
def nextMultiple (position alignment : ℕ) : ℕ :=
  (position + (alignment - 1)) / alignment * alignment

variable {alignment : ℕ} (position : ℕ)

theorem dvd_nextMultiple : alignment ∣ nextMultiple position alignment :=
  Nat.dvd_mul_left _ _

theorem le_nextMultiple (ha : 0 < alignment) :
    position ≤ nextMultiple position alignment := by
  have hmod := Nat.mod_lt (position + (alignment - 1)) ha
  have hdiv := Nat.div_add_mod (position + (alignment - 1)) alignment
  rw [nextMultiple, Nat.mul_comm]
  omega

theorem nextMultiple_add {base : ℕ} (ha : 0 < alignment) (hbase : alignment ∣ base) :
    nextMultiple (base + position) alignment = base + nextMultiple position alignment := by
  obtain ⟨k, rfl⟩ := hbase
  rw [nextMultiple, nextMultiple, Nat.add_assoc, Nat.mul_add_div ha, Nat.add_mul, Nat.mul_comm k]

variable {position}

theorem nextMultiple_le {x : ℕ} (ha : 0 < alignment) (hle : position ≤ x) (hdvd : alignment ∣ x) :
    nextMultiple position alignment ≤ x := by
  obtain ⟨q, rfl⟩ := hdvd
  rw [nextMultiple, Nat.mul_comm alignment q]
  refine Nat.mul_le_mul_right _ (Nat.le_of_lt_succ ?_)
  rw [Nat.div_lt_iff_lt_mul ha, Nat.succ_mul, Nat.mul_comm q]
  omega

theorem nextMultiple_eq {x : ℕ} (ha : 0 < alignment) (hle : position ≤ x) (hdvd : alignment ∣ x)
    (hleast : ∀ y, position ≤ y → alignment ∣ y → x ≤ y) : x = nextMultiple position alignment :=
  Nat.le_antisymm (hleast _ (le_nextMultiple position ha) (dvd_nextMultiple position))
    (nextMultiple_le ha hle hdvd)

theorem nextMultiple_of_dvd (ha : 0 < alignment) (h : alignment ∣ position) :
    nextMultiple position alignment = position :=
  Nat.le_antisymm (nextMultiple_le ha le_rfl h) (le_nextMultiple position ha)

@[simp] theorem nextMultiple_one : nextMultiple position 1 = position :=
  nextMultiple_of_dvd Nat.one_pos (Nat.one_dvd position)

end Qld.Lib
