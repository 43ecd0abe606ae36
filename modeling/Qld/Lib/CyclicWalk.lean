import Mathlib.Data.List.Nodup
import Mathlib.Data.List.Perm.Subperm
import Mathlib.Data.List.Range
import Mathlib.Data.Nat.ModEq

/-!
# Walking around a table

A walk visits the positions of a table by a fixed step, modulo its size.

* `walkAt` — the position that is visited at some time; `walkAt_inj` — when the step has no
  factor in common with the size, none is visited twice on the way around;
* `walkFrom` — the positions up to a bound, from some time on; `walkFrom_perm` — on the
  way around these are all the positions up to the bound.
-/

namespace Qld.Lib

/-- The position visited at time `k`. -/
def walkAt (step size k : ℕ) : ℕ := k * step % size

/-- The positions up to `high` that are visited from time `k` on, once around. -/
def walkFrom (step size high k : ℕ) : List ℕ :=
  ((List.range' k (size - k)).map (walkAt step size)).filter (· ≤ high)

variable {step size high k : ℕ}

theorem walkAt_lt (hsize : 0 < size) : walkAt step size k < size := Nat.mod_lt _ hsize

/-- **No position is visited twice.** -/
theorem walkAt_inj (hcoprime : size.Coprime step) {i j : ℕ} (hi : i < size) (hj : j < size)
    (h : walkAt step size i = walkAt step size j) : i = j := by
  have hmod : i * step ≡ j * step [MOD size] := h
  have hcancel := Nat.ModEq.cancel_right_of_coprime hcoprime hmod
  exact hcancel.eq_of_lt_of_lt hi hj

/-- **Once around, the positions up to the bound are all visited.** -/
theorem walkFrom_perm (hcoprime : size.Coprime step) (hhigh : high < size) :
    (walkFrom step size high 0).Perm (List.range (high + 1)) := by
  have hnodup : ((List.range size).map (walkAt step size)).Nodup := by
    refine List.Nodup.map_on ?_ List.nodup_range
    intro i hi j hj h
    exact walkAt_inj hcoprime (List.mem_range.mp hi) (List.mem_range.mp hj) h
  have hsub : (List.range size).map (walkAt step size) ⊆ List.range size := by
    intro p hp
    obtain ⟨i, -, rfl⟩ := List.mem_map.mp hp
    exact List.mem_range.mpr (walkAt_lt (Nat.zero_lt_of_lt hhigh))
  have hperm : ((List.range size).map (walkAt step size)).Perm (List.range size) := by
    refine (List.subperm_of_subset hnodup hsub).perm_of_length_le ?_
    simp
  have hfilter : (List.range size).filter (· ≤ high) = List.range (high + 1) := by
    have hsplit : size = (high + 1) + (size - (high + 1)) := by omega
    rw [hsplit, List.range_add, List.filter_append, List.filter_eq_self.mpr, List.filter_eq_nil_iff.mpr,
      List.append_nil]
    · intro p hp
      obtain ⟨i, -, rfl⟩ := List.mem_map.mp hp
      simp
      omega
    · intro p hp
      have := List.mem_range.mp hp
      simp
      omega
  have hfrom := hperm.filter (· ≤ high)
  rw [hfilter] at hfrom
  rw [walkFrom, Nat.sub_zero, ← List.range_eq_range']
  exact hfrom

end Qld.Lib
