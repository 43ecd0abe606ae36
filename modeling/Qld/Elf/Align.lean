import Qld.Elf.Word
import Qld.Lib.Except
import Qld.Lib.LittleEndian

/-!
# Alignment

The checked arithmetic of layout: `align_up` and `add` of `elf/layout.rs`.

* `alignUp_spec` — the least multiple of the alignment that is not below a value;
* `land_not_low` — clearing low bits.
-/

namespace Qld.Elf

open Qld.Lib

/-- `!value` of a `u64`. -/
def not64 (value : ℕ) : ℕ := U64_MAX - value

def spaceError : String := "output larger than the address space"

/-- `value`, rounded up to a multiple of `align`. -/
def alignUp (value align : ℕ) : Except String ℕ :=
  if ¬ (max align 1).isPowerOfTwo then
    .error ("alignment " ++ hex (max align 1) ++ " is not a power of two")
  else
    okOrElse ((checkedAdd value (max align 1 - 1)).map fun v => v &&& not64 (max align 1 - 1))
      spaceError

/-- A sum, inside the address space. -/
def add (a b : ℕ) : Except String ℕ := okOrElse (checkedAdd a b) spaceError

theorem add_eq_ok {a b c : ℕ} (h : add a b = .ok c) : c = a + b ∧ c < 2 ^ 64 := by
  obtain ⟨rfl, hlt⟩ := checkedAdd_eq_some (okOrElse_eq_ok.mp h)
  exact ⟨rfl, hlt⟩

theorem land_not_low {v k : ℕ} (hv : v < 2 ^ 64) (hk : k ≤ 64) :
    v &&& not64 (2 ^ k - 1) = v / 2 ^ k * 2 ^ k := by
  have hmask : not64 (2 ^ k - 1) = (2 ^ (64 - k) - 1) <<< k := by
    have hpow : 2 ^ (64 - k) * 2 ^ k = 2 ^ 64 := by rw [← Nat.pow_add, Nat.sub_add_cancel hk]
    have hpos := Nat.two_pow_pos k
    have hone := Nat.two_pow_pos (64 - k)
    rw [Nat.shiftLeft_eq, Nat.sub_mul, hpow, not64, U64_MAX]
    omega
  have hlt : v / 2 ^ k < 2 ^ (64 - k) := by
    rw [Nat.div_lt_iff_lt_mul (Nat.two_pow_pos k), ← Nat.pow_add, Nat.sub_add_cancel hk]
    exact hv
  rw [hmask, land_mask, Nat.mod_eq_of_lt hlt]

/-- **The least multiple of the alignment that is not below the value.** -/
theorem alignUp_spec {value align result : ℕ} (h : alignUp value align = .ok result) :
    value ≤ result ∧ result < 2 ^ 64 ∧ max align 1 ∣ result ∧
      ∀ x, value ≤ x → max align 1 ∣ x → result ≤ x := by
  rw [alignUp] at h
  split at h
  · exact nomatch h
  · next hpow =>
    obtain ⟨k, hk⟩ := not_not.mp hpow
    obtain ⟨v, hv, rfl⟩ := Option.map_eq_some_iff.mp (okOrElse_eq_ok.mp h)
    obtain ⟨rfl, hlt⟩ := checkedAdd_eq_some hv
    rw [hk] at hlt ⊢
    have hpos := Nat.two_pow_pos k
    have hk64 : k ≤ 64 := by
      refine (Nat.pow_le_pow_iff_right (Nat.one_lt_two)).mp ?_
      omega
    rw [land_not_low hlt hk64]
    have hround := Nat.div_add_mod' (value + (2 ^ k - 1)) (2 ^ k)
    have hmod := Nat.mod_lt (value + (2 ^ k - 1)) hpos
    refine ⟨by omega, by omega, Nat.dvd_mul_left _ _, fun x hx hdvd => ?_⟩
    obtain ⟨q, rfl⟩ := hdvd
    rw [Nat.mul_comm (2 ^ k) q]
    refine Nat.mul_le_mul_right _ (Nat.le_of_lt_succ ?_)
    rw [Nat.div_lt_iff_lt_mul hpos, Nat.succ_mul, Nat.mul_comm q]
    omega

end Qld.Elf
