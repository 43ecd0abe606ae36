import Mathlib.Data.Nat.Bitwise

/-!
# The arithmetic of 64-bit words

Values are natural numbers; a `u64`, or a `usize` of a 64-bit host, is one below `2 ^ 64`.

* `wrappingAdd`, `wrappingSub`, `saturatingAdd`, `checkedAdd` — the operations on them.
-/

namespace Qld.Lib

def U64_MAX : ℕ := 2 ^ 64 - 1

/-- `wrapping_add`. -/
def wrappingAdd (a b : ℕ) : ℕ := (a + b) % 2 ^ 64

/-- `wrapping_sub`. -/
def wrappingSub (a b : ℕ) : ℕ := (a + 2 ^ 64 - b) % 2 ^ 64

/-- `saturating_add`. -/
def saturatingAdd (a b : ℕ) : ℕ := min (a + b) U64_MAX

/-- `checked_add`. -/
def checkedAdd (a b : ℕ) : Option ℕ := if a + b < 2 ^ 64 then some (a + b) else none

theorem wrappingSub_of_le {a b : ℕ} (hba : b ≤ a) (ha : a < 2 ^ 64) : wrappingSub a b = a - b := by
  rw [wrappingSub]
  omega

theorem wrappingAdd_of_lt {a b : ℕ} (h : a + b < 2 ^ 64) : wrappingAdd a b = a + b :=
  Nat.mod_eq_of_lt h

theorem saturatingAdd_of_lt {a b : ℕ} (h : a + b < 2 ^ 64) : saturatingAdd a b = a + b := by
  rw [saturatingAdd, U64_MAX]
  omega

theorem checkedAdd_eq_some {a b c : ℕ} (h : checkedAdd a b = some c) :
    c = a + b ∧ a + b < 2 ^ 64 := by
  rw [checkedAdd, Option.ite_none_right_eq_some] at h
  exact ⟨(Option.some.inj h.2).symm, h.1⟩

end Qld.Lib
