import Mathlib.Data.Nat.Size
import Qld.Lib.Word64

/-!
# Byte buffers

The model of the helpers of `macho/buf.rs` and `macho/read/bytes.rs` that the export trie uses.
Values are natural numbers; a `u64` is one below `2 ^ 64`.

* `pushUleb`, `ulebSize` — unsigned LEB128 and its size; `readUleb` — the reader, which refuses what
  does not fit in 64 bits; `cstr` — a NUL-terminated string;
* `length_pushUleb` — the size is the length;
* `readUleb_pushUleb` — the reader gives a value back, wherever it stands;
* `ulebSize_mono` — a larger value is not shorter.
-/

namespace Qld.Macho

open Qld.Lib

/-- A value as unsigned LEB128: seven bits a byte, the high bit set on all but the last. -/
def pushUleb (value : ℕ) : List UInt8 :=
  if value / 128 = 0 then [UInt8.ofNat (value % 128)]
  else UInt8.ofNat (value % 128 + 128) :: pushUleb (value / 128)
termination_by value

/-- The size of a value as unsigned LEB128. -/
def ulebSize (value : ℕ) : ℕ := (max value.size 1 + 6) / 7

/-- Decodes an unsigned LEB128 value at the start of the bytes; returns it, and how many bytes were
read.  `none` on truncation or when the value does not fit in 64 bits. -/
def readUlebFrom : List UInt8 → ℕ → ℕ → Option ℕ × ℕ
  | [], _, _ => (none, 0)
  | byte :: rest, shift, result =>
    let low := byte.toNat % 128
    let shifted := low <<< shift % 2 ^ 64
    if (64 ≤ shift ∧ low ≠ 0) ∨ (shift < 64 ∧ shifted >>> shift ≠ low) then (none, 1)
    else
      let result := if 64 ≤ shift then result else result ||| shifted
      if byte.toNat < 128 then (some result, 1)
      else
        let next := readUlebFrom rest (shift + 7) result
        (next.1, next.2 + 1)

/-- Decodes an unsigned LEB128 value at `pos`; returns it and the position that was reached. -/
def readUleb (data : List UInt8) (pos : ℕ) : Option ℕ × ℕ :=
  let read := readUlebFrom (data.drop pos) 0 0
  (read.1, pos + read.2)

/-- The NUL-terminated string at the start of the bytes, without its terminator. -/
def cstr (data : List UInt8) : Option (List UInt8) :=
  (data.findIdx? fun b => b = 0).map data.take

/-! ### Sizes -/

theorem pushUleb_small {value : ℕ} (h : value < 128) :
    pushUleb value = [UInt8.ofNat value] := by
  rw [pushUleb, if_pos (by omega), Nat.mod_eq_of_lt h]

theorem pushUleb_large {value : ℕ} (h : 128 ≤ value) :
    pushUleb value = UInt8.ofNat (value % 128 + 128) :: pushUleb (value / 128) := by
  rw [pushUleb, if_neg (by omega)]

theorem size_div_128 {value : ℕ} (h : 128 ≤ value) : value.size = (value / 128).size + 7 := by
  have hle : ∀ k, value.size ≤ k + 7 ↔ (value / 128).size ≤ k := by
    intro k
    rw [Nat.size_le, Nat.size_le, pow_add, Nat.div_lt_iff_lt_mul (by decide)]
    rfl
  have hseven : 7 < value.size := Nat.lt_size.mpr h
  refine le_antisymm ((hle _).mpr le_rfl) ?_
  have := (hle (value.size - 7)).mp (by omega)
  omega

/-- **The size is the length.** -/
theorem length_pushUleb (value : ℕ) : (pushUleb value).length = ulebSize value := by
  induction value using Nat.strong_induction_on with
  | _ value ih =>
    by_cases h : value < 128
    · have hsize : value.size ≤ 7 := Nat.size_le.mpr h
      rw [pushUleb_small h, ulebSize, List.length_singleton]
      omega
    · rw [not_lt] at h
      have hpos : 0 < (value / 128).size := Nat.size_pos.mpr (by omega)
      rw [pushUleb_large h, List.length_cons, ih _ (by omega), ulebSize, ulebSize, size_div_128 h]
      omega

theorem ulebSize_mono {a b : ℕ} (h : a ≤ b) : ulebSize a ≤ ulebSize b := by
  have hsize := Nat.size_le_size h
  rw [ulebSize, ulebSize]
  omega

theorem ulebSize_pos (value : ℕ) : 0 < ulebSize value := by
  rw [ulebSize]
  omega

/-! ### Round trip -/

theorem readUlebFrom_cons {byte : UInt8} {rest : List UInt8} {shift result low : ℕ}
    (hlow : byte.toNat % 128 = low) (hresult : result < 2 ^ shift) (hshift : shift < 64)
    (hfits : low <<< shift < 2 ^ 64) :
    readUlebFrom (byte :: rest) shift result =
      if byte.toNat < 128 then (some (result + low <<< shift), 1)
      else
        ((readUlebFrom rest (shift + 7) (result + low <<< shift)).1,
          (readUlebFrom rest (shift + 7) (result + low <<< shift)).2 + 1) := by
  rw [readUlebFrom]
  simp only [hlow, Nat.mod_eq_of_lt hfits]
  have hback : low <<< shift >>> shift = low := Nat.shiftLeft_shiftRight low shift
  have hsum : result ||| low <<< shift = result + low <<< shift := by
    rw [Nat.or_comm, ← Nat.shiftLeft_add_eq_or_of_lt hresult, Nat.add_comm]
  rw [if_neg (by rw [hback]; omega), if_neg (by omega : ¬ 64 ≤ shift), hsum]

theorem readUlebFrom_pushUleb (tail : List UInt8) (value : ℕ) :
    ∀ shift result, result < 2 ^ shift → (value = 0 → shift = 0) → value <<< shift < 2 ^ 64 →
      readUlebFrom (pushUleb value ++ tail) shift result =
        (some (result + value <<< shift), (pushUleb value).length) := by
  induction value using Nat.strong_induction_on with
  | _ value ih =>
    intro shift result hresult hzero hfits
    have hshift : shift < 64 := by
      by_cases hv : value = 0
      · rw [hzero hv]
        decide
      · refine (Nat.pow_lt_pow_iff_right (by decide : 1 < 2)).mp (lt_of_le_of_lt ?_ hfits)
        rw [Nat.shiftLeft_eq]
        exact Nat.le_mul_of_pos_left _ (Nat.pos_of_ne_zero hv)
    by_cases h : value < 128
    · have hbyte : (UInt8.ofNat value).toNat = value := by
        rw [UInt8.toNat_ofNat']
        omega
      rw [pushUleb_small h, List.singleton_append,
        readUlebFrom_cons (by rw [hbyte, Nat.mod_eq_of_lt h]) hresult hshift hfits,
        if_pos (by rw [hbyte]; exact h), List.length_singleton]
    · rw [not_lt] at h
      have hbyte : (UInt8.ofNat (value % 128 + 128)).toNat = value % 128 + 128 := by
        rw [UInt8.toNat_ofNat']
        omega
      have hsplit : value <<< shift = (value % 128) <<< shift + (value / 128) <<< (shift + 7) := by
        rw [Nat.shiftLeft_eq, Nat.shiftLeft_eq, Nat.shiftLeft_eq, pow_add, mul_comm (2 ^ shift),
          ← mul_assoc, ← Nat.add_mul]
        congr 1
        omega
      have hnext : result + (value % 128) <<< shift < 2 ^ (shift + 7) := by
        rw [Nat.shiftLeft_eq, pow_add]
        have hlow : value % 128 * 2 ^ shift ≤ 127 * 2 ^ shift :=
          Nat.mul_le_mul_right _ (by omega)
        omega
      have hlow : (UInt8.ofNat (value % 128 + 128)).toNat % 128 = value % 128 := by omega
      rw [hsplit] at hfits
      rw [pushUleb_large h, List.cons_append,
        readUlebFrom_cons hlow hresult hshift (lt_of_le_of_lt (Nat.le_add_right _ _) hfits),
        if_neg (by omega), ih _ (by omega) _ _ hnext (fun hzero => by omega)
          (lt_of_le_of_lt (Nat.le_add_left _ _) hfits),
        List.length_cons, Nat.add_assoc, ← hsplit]

/-- **The reader gives a value back.** -/
theorem readUleb_pushUleb {data before tail : List UInt8} {pos value : ℕ}
    (hdata : data = before ++ (pushUleb value ++ tail)) (hpos : before.length = pos)
    (hvalue : value < 2 ^ 64) :
    readUleb data pos = (some value, pos + (pushUleb value).length) := by
  rw [readUleb, hdata, ← hpos, List.drop_left,
    readUlebFrom_pushUleb tail value 0 0 (by simp) (fun _ => rfl) (by simpa using hvalue)]
  simp

theorem cstr_append {label : List UInt8} (h : 0 ∉ label) (tail : List UInt8) :
    cstr (label ++ 0 :: tail) = some label := by
  have hfind : (label ++ 0 :: tail).findIdx? (fun b => b = 0) = some label.length := by
    rw [List.findIdx?_append, List.findIdx?_eq_none_iff.mpr]
    · simp [List.findIdx?_cons]
    · intro b hb
      simp only [decide_eq_false_iff_not]
      exact fun heq => h (heq ▸ hb)
  rw [cstr, hfind, Option.map_some, List.take_left]

end Qld.Macho
