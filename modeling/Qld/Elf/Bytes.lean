import Mathlib.Tactic.Ring
import Mathlib.Data.Nat.Bitwise

/-!
# Numbers as bytes

* `getRange` — a part of some bytes;
* `beBytes`, `beValue` — a number as bytes, the most significant first, and back;
* `Endian.putU32`, `Endian.getUint` — a 32-bit field in a byte order, and the value of some bytes;
* `beValue_beBytes`, `getUint_putU32` — what fits is read back;
* `beBytes_beValue`, `putU32_getUint` — bytes are those of their value.
-/

namespace Qld.Elf

/-- `data.get(start..stop)`: a part of some bytes, when it is inside. -/
def getRange (data : List UInt8) (start stop : ℕ) : Option (List UInt8) :=
  if start ≤ stop ∧ stop ≤ data.length then some ((data.drop start).take (stop - start)) else none

/-- A number as bytes, the most significant first. -/
def beBytes : ℕ → ℕ → List UInt8
  | 0, _ => []
  | n + 1, value => UInt8.ofNat (value >>> (8 * n)) :: beBytes n value

/-- The number of bytes, the most significant first. -/
def beValue (bytes : List UInt8) : ℕ := bytes.foldl (fun value b => value * 256 + b.toNat) 0

@[simp] theorem length_beBytes (n value : ℕ) : (beBytes n value).length = n := by
  induction n with
  | zero => rfl
  | succ n ih => rw [beBytes, List.length_cons, ih]

theorem foldl_beBytes (n value acc : ℕ) :
    (beBytes n value).foldl (fun v b => v * 256 + b.toNat) acc =
      acc * 256 ^ n + value % 256 ^ n := by
  induction n generalizing acc with
  | zero => simp [beBytes, Nat.mod_one]
  | succ n ih =>
    have hbyte : (UInt8.ofNat (value >>> (8 * n))).toNat = value / 256 ^ n % 256 := by
      rw [UInt8.toNat_ofNat', Nat.shiftRight_eq_div_pow, pow_mul]
      rfl
    rw [beBytes, List.foldl_cons, ih, hbyte, Nat.mod_pow_succ, pow_succ]
    ring

/-- **A number that fits is read back.** -/
theorem beValue_beBytes (n value : ℕ) : beValue (beBytes n value) = value % 256 ^ n := by
  rw [beValue, foldl_beBytes, Nat.zero_mul, Nat.zero_add]

theorem foldl_beValue (bytes : List UInt8) (acc : ℕ) :
    bytes.foldl (fun v b => v * 256 + b.toNat) acc = acc * 256 ^ bytes.length + beValue bytes := by
  induction bytes generalizing acc with
  | nil => simp [beValue]
  | cons b bytes ih =>
    rw [beValue, List.foldl_cons, List.foldl_cons, ih, ih, List.length_cons, pow_succ]
    ring

theorem beValue_lt (bytes : List UInt8) : beValue bytes < 256 ^ bytes.length := by
  induction bytes with
  | nil => exact Nat.one_pos
  | cons b bytes ih =>
    have hb := b.toNat_lt
    rw [beValue, List.foldl_cons, foldl_beValue, Nat.zero_mul, Nat.zero_add, List.length_cons,
      pow_succ']
    calc b.toNat * 256 ^ bytes.length + beValue bytes
        < b.toNat * 256 ^ bytes.length + 256 ^ bytes.length := Nat.add_lt_add_left ih _
      _ = (b.toNat + 1) * 256 ^ bytes.length := (Nat.succ_mul _ _).symm
      _ ≤ 256 * 256 ^ bytes.length := Nat.mul_le_mul_right _ hb

/-- Bytes are those of their value. -/
theorem beBytes_beValue (bytes : List UInt8) : beBytes bytes.length (beValue bytes) = bytes := by
  have hfold : ∀ acc, beBytes bytes.length
      (bytes.foldl (fun v b => v * 256 + b.toNat) acc) = bytes := by
    induction bytes with
    | nil => exact fun _ => rfl
    | cons b bytes ih =>
      intro acc
      rw [List.foldl_cons, List.length_cons, beBytes, ih, foldl_beValue, Nat.shiftRight_eq_div_pow,
        pow_mul, Nat.add_comm]
      change UInt8.ofNat ((beValue bytes + _ * 256 ^ bytes.length) / 256 ^ bytes.length) :: _ = _
      rw [Nat.add_mul_div_right _ _ (Nat.pow_pos (by decide)),
        Nat.div_eq_of_lt (beValue_lt bytes), Nat.zero_add]
      have hbyte : UInt8.ofNat (acc * 256 + b.toNat) = b := by
        have hb := b.toNat_lt
        rw [← UInt8.toNat_inj, UInt8.toNat_ofNat']
        omega
      rw [hbyte]
  exact hfold 0

/-! ### Byte orders -/

/-- The byte order of an output. -/
inductive Endian where
  | little
  | big
  deriving DecidableEq, Repr

namespace Endian

/-- A 32-bit field. -/
def putU32 : Endian → ℕ → List UInt8
  | little, value => (beBytes 4 value).reverse
  | big, value => beBytes 4 value

/-- The value of some bytes. -/
def getUint : Endian → List UInt8 → ℕ
  | little, bytes => beValue bytes.reverse
  | big, bytes => beValue bytes

@[simp] theorem length_putU32 (e : Endian) (value : ℕ) : (e.putU32 value).length = 4 := by
  cases e with
  | little => rw [putU32, List.length_reverse, length_beBytes]
  | big => rw [putU32, length_beBytes]

theorem getUint_putU32 (e : Endian) {value : ℕ} (h : value < 2 ^ 32) :
    e.getUint (e.putU32 value) = value := by
  have hvalue : value % 256 ^ 4 = value := Nat.mod_eq_of_lt h
  cases e with
  | little => rw [putU32, getUint, List.reverse_reverse, beValue_beBytes, hvalue]
  | big => rw [putU32, getUint, beValue_beBytes, hvalue]

theorem getUint_lt {e : Endian} {bytes : List UInt8} (hlen : bytes.length = 4) :
    e.getUint bytes < 2 ^ 32 := by
  cases e with
  | little =>
    have h := beValue_lt bytes.reverse
    rwa [List.length_reverse, hlen] at h
  | big =>
    have h := beValue_lt bytes
    rwa [hlen] at h

/-- A 32-bit field is that of its value. -/
theorem putU32_getUint {e : Endian} {bytes : List UInt8} (hlen : bytes.length = 4) :
    e.putU32 (e.getUint bytes) = bytes := by
  cases e with
  | little =>
    rw [putU32, getUint, ← hlen, ← List.length_reverse, beBytes_beValue, List.reverse_reverse]
  | big => rw [putU32, getUint, ← hlen, beBytes_beValue]

theorem getUint_eq_max {e : Endian} {bytes : List UInt8} (hlen : bytes.length = 4) :
    e.getUint bytes = 2 ^ 32 - 1 ↔ bytes = [255, 255, 255, 255] := by
  refine ⟨fun h => ?_, fun h => ?_⟩
  · rw [← putU32_getUint (e := e) hlen, h]
    cases e <;> decide
  · rw [h]
    cases e <;> rfl

end Endian

end Qld.Elf
