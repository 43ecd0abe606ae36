import Mathlib.Data.Int.ModEq
import Mathlib.Tactic.Linarith
import Mathlib.Tactic.LinearCombination
import Mathlib.Tactic.Ring
import Qld.Macho.Buf

/-!
# Signed LEB128

The model of `push_sleb` of `macho/buf.rs` and of `read_sleb` of `macho/read/bytes.rs`.  An `i64` is
an integer from `-2 ^ 63` to `2 ^ 63 - 1`; the reader collects bits modulo `2 ^ 64`.

* `pushSleb`, `readSlebFrom` — the writer and the reader;
* `readSleb_pushSleb` — the reader gives a value back.
-/

namespace Qld.Macho

/-- A value as signed LEB128. -/
def pushSleb (value : ℤ) : List UInt8 :=
  if (value / 128 = 0 ∧ value % 128 < 64) ∨ (value / 128 = -1 ∧ 64 ≤ value % 128) then
    [UInt8.ofNat (value % 128).toNat]
  else UInt8.ofNat ((value % 128).toNat + 128) :: pushSleb (value / 128)
termination_by value.natAbs
decreasing_by omega

/-- Decodes a signed LEB128 value at the start of the bytes; returns it, and how many bytes were
read.  Bits beyond 64 are ignored. -/
def readSlebFrom : List UInt8 → ℕ → ℕ → Option (ℤ × ℕ)
  | [], _, _ => none
  | byte :: rest, shift, result =>
    let result := if shift < 64 then result ||| (byte.toNat % 128) <<< shift % 2 ^ 64 else result
    if byte.toNat < 128 then
      let extended := if shift + 7 < 64 ∧ 64 ≤ byte.toNat % 128 then
        result ||| (2 ^ 64 - 2 ^ (shift + 7)) else result
      some (Int.bmod extended (2 ^ 64), 1)
    else (readSlebFrom rest (shift + 7) result).map fun read => (read.1, read.2 + 1)

variable {value : ℤ}

theorem pushSleb_small (hlow : -64 ≤ value) (hhigh : value < 64) :
    pushSleb value = [UInt8.ofNat (value % 128).toNat] := by
  rw [pushSleb, if_pos (by omega)]

theorem pushSleb_large (h : value < -64 ∨ 64 ≤ value) :
    pushSleb value = UInt8.ofNat ((value % 128).toNat + 128) :: pushSleb (value / 128) := by
  rw [pushSleb, if_neg (by omega)]

/-- The bits of a byte in their place, as far as they are kept. -/
theorem or_bits {result low shift : ℕ} (hresult : result < 2 ^ shift) (hshift : shift < 64) :
    result ||| low <<< shift % 2 ^ 64 = result + low <<< shift % 2 ^ 64 := by
  have hkept : low <<< shift % 2 ^ 64 = (low % 2 ^ (64 - shift)) <<< shift := by
    rw [Nat.shiftLeft_eq, Nat.shiftLeft_eq, ← Nat.mul_mod_mul_right, ← pow_add,
      Nat.sub_add_cancel hshift.le]
  rw [hkept, Nat.or_comm, ← Nat.shiftLeft_add_eq_or_of_lt hresult, Nat.add_comm]

theorem bmod_congr {a b : ℤ} {n : ℕ} (h : a ≡ b [ZMOD n]) : Int.bmod a n = Int.bmod b n := by
  rw [← Int.emod_bmod a, ← Int.emod_bmod b, h]

theorem bits_modEq (low shift : ℕ) :
    ((low <<< shift % 2 ^ 64 : ℕ) : ℤ) ≡ low * 2 ^ shift [ZMOD (2 ^ 64 : ℕ)] := by
  rw [Nat.shiftLeft_eq]
  push_cast
  exact Int.mod_modEq _ _

theorem extend_modEq {byte shift result : ℕ} (hbyte : (byte : ℤ) = value % 128) (hlow : -64 ≤ value)
    (hhigh : value < 64) (hresult : result < 2 ^ shift) (hshift : shift < 64) :
    ((if shift + 7 < 64 ∧ 64 ≤ byte then
        (result ||| byte <<< shift % 2 ^ 64) ||| (2 ^ 64 - 2 ^ (shift + 7))
      else result ||| byte <<< shift % 2 ^ 64 : ℕ) : ℤ) ≡
        result + value * 2 ^ shift [ZMOD (2 ^ 64 : ℕ)] := by
  have hkept := bits_modEq byte shift
  rw [or_bits hresult hshift]
  have hsum : ((result + byte <<< shift % 2 ^ 64 : ℕ) : ℤ) ≡ result + byte * 2 ^ shift
      [ZMOD (2 ^ 64 : ℕ)] := by
    rw [Nat.cast_add]
    exact Int.ModEq.add_left _ hkept
  by_cases hnegative : 64 ≤ byte
  · -- the value is negative
    have hvalue : value * 2 ^ shift = byte * 2 ^ shift - 2 ^ (shift + 7) := by
      rw [show value = byte - 128 by omega, pow_add]
      ring
    by_cases hroom : shift + 7 < 64
    · rw [if_pos ⟨hroom, hnegative⟩]
      have hbits : byte <<< shift < 2 ^ 64 ∧ result + byte <<< shift < 2 ^ (shift + 7) := by
        have hle : byte <<< shift ≤ 127 * 2 ^ shift := by
          rw [Nat.shiftLeft_eq]
          exact Nat.mul_le_mul_right _ (by omega)
        have hpow : 2 ^ (shift + 7) ≤ 2 ^ 64 := Nat.pow_le_pow_right (by decide) hroom.le
        rw [pow_add] at hpow ⊢
        omega
      have hfill : 2 ^ 64 - 2 ^ (shift + 7) = (2 ^ (57 - shift) - 1) <<< (shift + 7) := by
        rw [Nat.shiftLeft_eq, Nat.sub_mul, ← pow_add, Nat.one_mul]
        congr 2
        omega
      rw [Nat.mod_eq_of_lt hbits.1] at hsum ⊢
      rw [hfill, Nat.or_comm, ← Nat.shiftLeft_add_eq_or_of_lt hbits.2, ← hfill, Nat.cast_add,
        Nat.cast_sub (Nat.pow_le_pow_right (by decide) hroom.le), hvalue]
      obtain ⟨k, hk⟩ := Int.modEq_iff_dvd.mp hsum
      refine Int.modEq_iff_dvd.mpr ⟨k - 1, ?_⟩
      push_cast at hk ⊢
      linarith
    · rw [if_neg (by omega), hvalue]
      obtain ⟨k, hk⟩ := Int.modEq_iff_dvd.mp hsum
      have hpow : (2 : ℤ) ^ (shift + 7) = 2 ^ 64 * 2 ^ (shift - 57) := by
        rw [← pow_add]
        congr 1
        omega
      refine Int.modEq_iff_dvd.mpr ⟨k - 2 ^ (shift - 57), ?_⟩
      rw [hpow]
      push_cast at hk ⊢
      linarith
  · rw [if_neg (by omega), show value = byte by omega]
    exact hsum

theorem readSlebFrom_pushSleb (tail : List UInt8) : ∀ (size : ℕ) (value : ℤ) (shift left result : ℕ),
    value.natAbs = size → shift + left = 63 → result < 2 ^ shift → -2 ^ left ≤ value →
    value < 2 ^ left → readSlebFrom (pushSleb value ++ tail) shift result =
      some (Int.bmod (result + value * 2 ^ shift) (2 ^ 64), (pushSleb value).length) := by
  intro size
  induction size using Nat.strong_induction_on with
  | _ size ih =>
    intro value shift left result hsize hsum hresult hlow hhigh
    by_cases hsmall : -64 ≤ value ∧ value < 64
    · have hbyte : (UInt8.ofNat (value % 128).toNat).toNat = (value % 128).toNat := by
        rw [UInt8.toNat_ofNat']
        omega
      have hmod : (value % 128).toNat % 128 = (value % 128).toNat := by omega
      rw [pushSleb_small hsmall.1 hsmall.2, List.singleton_append, readSlebFrom, hbyte, hmod,
        if_pos (by omega : shift < 64)]
      dsimp only
      rw [if_pos (by omega), bmod_congr (extend_modEq (by omega) hsmall.1 hsmall.2 hresult
        (by omega : shift < 64))]
      rfl
    · have hbyte : (UInt8.ofNat ((value % 128).toNat + 128)).toNat = (value % 128).toNat + 128 := by
        rw [UInt8.toNat_ofNat']
        omega
      have hmod : ((value % 128).toNat + 128) % 128 = (value % 128).toNat := by omega
      -- seven more bits are left
      obtain ⟨rest, rfl⟩ : ∃ rest, left = rest + 7 := by
        refine Nat.exists_eq_add_of_le' (Nat.le_of_not_lt fun hlt => hsmall ?_)
        have hpow : (2 : ℤ) ^ left ≤ 2 ^ 6 := pow_le_pow_right₀ (by decide) (by omega)
        omega
      rw [pow_add] at hlow hhigh
      have hbits : (value % 128).toNat <<< shift < 2 ^ 64 ∧
          result + (value % 128).toNat <<< shift < 2 ^ (shift + 7) := by
        have hle : (value % 128).toNat <<< shift ≤ 127 * 2 ^ shift := by
          rw [Nat.shiftLeft_eq]
          exact Nat.mul_le_mul_right _ (by omega)
        have hpow : 2 ^ (shift + 7) ≤ 2 ^ 64 := Nat.pow_le_pow_right (by decide) (by omega)
        rw [pow_add] at hpow ⊢
        omega
      rw [pushSleb_large (by omega), List.cons_append, readSlebFrom, hbyte, hmod,
        if_pos (by omega : shift < 64), or_bits hresult (by omega), Nat.mod_eq_of_lt hbits.1]
      dsimp only
      rw [if_neg (by omega), ih _ (by omega) (value / 128) (shift + 7) rest _ rfl (by omega) hbits.2
        (by omega) (by omega), Option.map_some, List.length_cons]
      have hvalue : ((result + (value % 128).toNat <<< shift : ℕ) : ℤ) +
          value / 128 * 2 ^ (shift + 7) = result + value * 2 ^ shift := by
        rw [Nat.shiftLeft_eq, pow_add]
        push_cast
        rw [Int.toNat_of_nonneg (by omega)]
        linear_combination (2 ^ shift : ℤ) * Int.emod_add_mul_ediv value 128
      rw [hvalue]

/-- **The reader gives a value back.** -/
theorem readSleb_pushSleb (tail : List UInt8) (hlow : -2 ^ 63 ≤ value) (hhigh : value < 2 ^ 63) :
    readSlebFrom (pushSleb value ++ tail) 0 0 = some (value, (pushSleb value).length) := by
  rw [readSlebFrom_pushSleb tail _ value 0 63 0 rfl rfl (by decide) hlow hhigh]
  have hvalue : ((0 : ℕ) : ℤ) + value * 2 ^ 0 = value := by ring
  rw [hvalue, Int.bmod_eq_of_le (by omega) (by omega)]

end Qld.Macho
