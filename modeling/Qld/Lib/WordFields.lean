import Qld.Lib.A64

/-!
# Fields of an instruction word

A run is the first bit of a field and its width.

* `InRun`, `Covers` — the bits of a run, and runs that take every bit of a word;
* `KeepsOutside` — two words that agree on all other bits;
* `keepsOutside_of_bits` — words are compared run by run;
* `signExtend_toNat` — a number in two's complement.
-/

namespace Qld.Lib

open A64 (signExtend)

/-! ### Runs of bits -/

/-- A bit of a run. -/
def InRun (run : ℕ × ℕ) (i : ℕ) : Prop := run.1 ≤ i ∧ i < run.1 + run.2

instance (run : ℕ × ℕ) (i : ℕ) : Decidable (InRun run i) :=
  inferInstanceAs (Decidable (run.1 ≤ i ∧ i < run.1 + run.2))

/-- Runs that take all of the lowest bits. -/
def Covers (runs : List (ℕ × ℕ)) (width : ℕ) : Prop := ∀ i < width, ∃ run ∈ runs, InRun run i

instance (runs : List (ℕ × ℕ)) (width : ℕ) : Decidable (Covers runs width) :=
  inferInstanceAs (Decidable (∀ i < width, ∃ run ∈ runs, InRun run i))

/-- Of the lowest bits, only those of the runs differ. -/
def KeepsOutside (runs : List (ℕ × ℕ)) (width x y : ℕ) : Prop :=
  ∀ i < width, (∀ run ∈ runs, ¬InRun run i) → y.testBit i = x.testBit i

theorem testBit_bits (x l w i : ℕ) :
    (bits x l w).testBit i = (decide (i < w) && x.testBit (l + i)) := by
  rw [bits, Nat.testBit_mod_two_pow, ← Nat.shiftRight_eq_div_pow, Nat.testBit_shiftRight]

theorem land_low_mask (x w : ℕ) : x &&& (2 ^ w - 1) = bits x 0 w := by
  rw [Nat.and_two_pow_sub_one_eq_mod, bits, Nat.pow_zero, Nat.div_one]

theorem land_shiftLeft_lt {mask k n : ℕ} (x : ℕ) (h : mask <<< k < 2 ^ n) :
    (x &&& mask) <<< k < 2 ^ n := by
  refine lt_of_le_of_lt ?_ h
  rw [Nat.shiftLeft_eq, Nat.shiftLeft_eq]
  exact Nat.mul_le_mul_right _ Nat.and_le_right

theorem land_two_pow_ne_zero (word k : ℕ) : word &&& 2 ^ k ≠ 0 ↔ bits word k 1 = 1 := by
  have hmask := land_mask word 1 k
  rw [Nat.shiftLeft_eq, show (2 ^ 1 - 1) * 2 ^ k = 2 ^ k by rw [Nat.pow_one, Nat.one_mul]] at hmask
  have hlt := bits_lt_two word k
  have hpos := Nat.two_pow_pos k
  rw [hmask, ← bits, Nat.mul_ne_zero_iff]
  omega

theorem bits_shiftLeft_lt {w k n : ℕ} (x l : ℕ) (h : w + k ≤ n) : bits x l w <<< k < 2 ^ n := by
  rw [Nat.shiftLeft_eq]
  calc bits x l w * 2 ^ k < 2 ^ w * 2 ^ k :=
        Nat.mul_lt_mul_of_pos_right (bits_lt x l w) (Nat.two_pow_pos k)
    _ = 2 ^ (w + k) := (Nat.pow_add 2 w k).symm
    _ ≤ 2 ^ n := Nat.pow_le_pow_right (by decide) h

theorem bits_zero_of_lt {imm n : ℕ} (himm : imm < 2 ^ n) : bits imm 0 n = imm := by
  rw [bits, Nat.pow_zero, Nat.div_one, Nat.mod_eq_of_lt himm]

theorem testBit_eq_of_bits {x y i : ℕ} {run : ℕ × ℕ} (h : bits x run.1 run.2 = bits y run.1 run.2)
    (hi : InRun run i) : x.testBit i = y.testBit i := by
  have hbit := congrArg (fun n => n.testBit (i - run.1)) h
  have hlt : i - run.1 < run.2 := by
    have := hi.1
    have := hi.2
    omega
  simpa only [testBit_bits, hlt, decide_true, Bool.true_and, Nat.add_sub_cancel' hi.1] using hbit

/-- **Words that agree on the runs between.** -/
theorem keepsOutside_of_bits {runs : List (ℕ × ℕ)} {width x y : ℕ} (kept : List (ℕ × ℕ))
    (hcover : Covers (runs ++ kept) width)
    (h : ∀ run ∈ kept, bits y run.1 run.2 = bits x run.1 run.2) : KeepsOutside runs width x y := by
  intro i hi hout
  obtain ⟨run, hrun, hin⟩ := hcover i hi
  rcases List.mem_append.mp hrun with hrun | hrun
  · exact absurd hin (hout run hrun)
  · exact testBit_eq_of_bits (h run hrun) hin

/-! ### Signs -/

theorem signExtend_toNat {n : ℕ} {value : ℤ} (hn : 0 < n) (hlow : -2 ^ (n - 1) ≤ value)
    (hhigh : value < 2 ^ (n - 1)) : signExtend n (value % 2 ^ n).toNat = value := by
  obtain ⟨m, rfl⟩ := Nat.exists_eq_add_one_of_ne_zero (Nat.pos_iff_ne_zero.mp hn)
  rw [Nat.add_sub_cancel] at hlow hhigh
  have hdouble : (2 ^ (m + 1) : ℤ) = 2 * 2 ^ m := pow_succ' 2 m
  have hpow : (0 : ℤ) < 2 ^ m := Int.pow_pos (by decide)
  rw [signExtend, Nat.add_sub_cancel]
  by_cases hneg : value < 0
  · have hmod : value % 2 ^ (m + 1) = value + 2 ^ (m + 1) := by
      rw [← Int.add_emod_right, Int.emod_eq_of_lt (by omega) (by omega)]
    have hge : ¬(value + 2 ^ (m + 1)).toNat < 2 ^ m := by
      rw [← Int.ofNat_lt, Int.toNat_of_nonneg (by omega)]
      push_cast
      omega
    rw [hmod, if_neg hge, Int.toNat_of_nonneg (by omega)]
    omega
  · have hlt : value.toNat < 2 ^ m := by
      rw [← Int.ofNat_lt, Int.toNat_of_nonneg (by omega)]
      push_cast
      exact hhigh
    rw [Int.emod_eq_of_lt (by omega) (by omega), if_pos hlt, Int.toNat_of_nonneg (by omega)]

end Qld.Lib
