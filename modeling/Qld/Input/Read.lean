import Qld.Lib.Word64
import Qld.Lib.LittleEndian

/-!
# Readers over untrusted bytes

The model of `input/read.rs`.  A `usize` and a `u64` are natural numbers below `2 ^ 64`; every reader
gives `none` when the bytes are out of range.

* `bytes` — a slice; `u32Le`, `u32Be`, `u64Le`, `u64Be` — integers;
* `bytes_eq_some` — what a slice is.
-/

namespace Qld.Input

open Qld.Lib

/-- `data[offset..offset + len]`, or `none` if any part is out of range. -/
def bytes (data : List UInt8) (offset len : ℕ) : Option (List UInt8) :=
  (checkedAdd offset len).bind fun stop =>
    if stop ≤ data.length then some ((data.drop offset).take len) else none

/-- `data.get(start..)`. -/
def tail (data : List UInt8) (start : ℕ) : Option (List UInt8) :=
  if start ≤ data.length then some (data.drop start) else none

def u32Le (data : List UInt8) (offset : ℕ) : Option ℕ := (bytes data offset 4).map leValue

def u32Be (data : List UInt8) (offset : ℕ) : Option ℕ :=
  (bytes data offset 4).map fun b => leValue b.reverse

def u64Le (data : List UInt8) (offset : ℕ) : Option ℕ := (bytes data offset 8).map leValue

def u64Be (data : List UInt8) (offset : ℕ) : Option ℕ :=
  (bytes data offset 8).map fun b => leValue b.reverse

/-- `usize::try_from` of a `u64`, on a 64-bit host. -/
def toUsize (value : ℕ) : Option ℕ := if value < 2 ^ 64 then some value else none

/-- `usize::checked_mul`, and `u64::checked_mul`. -/
def checkedMul (a b : ℕ) : Option ℕ := if a * b < 2 ^ 64 then some (a * b) else none

theorem bytes_eq_some {data slice : List UInt8} {offset len : ℕ} (h : bytes data offset len = some slice) :
    offset + len < 2 ^ 64 ∧ offset + len ≤ data.length ∧ slice = (data.drop offset).take len ∧
      slice.length = len := by
  obtain ⟨stop, hstop, h⟩ := Option.bind_eq_some_iff.mp h
  obtain ⟨rfl, hlt⟩ := checkedAdd_eq_some hstop
  obtain ⟨hle, hslice⟩ := Option.ite_none_right_eq_some.mp h
  obtain rfl := Option.some.inj hslice
  refine ⟨hlt, hle, rfl, ?_⟩
  rw [List.length_take, List.length_drop]
  omega

theorem bytes_of_le {data : List UInt8} {offset len : ℕ} (hlt : offset + len < 2 ^ 64)
    (hle : offset + len ≤ data.length) : bytes data offset len = some ((data.drop offset).take len) := by
  rw [bytes, checkedAdd, if_pos hlt, Option.bind_some, if_pos hle]

theorem toUsize_eq_some {value n : ℕ} (h : toUsize value = some n) : n = value ∧ value < 2 ^ 64 := by
  obtain ⟨hlt, hvalue⟩ := Option.ite_none_right_eq_some.mp h
  exact ⟨(Option.some.inj hvalue).symm, hlt⟩

end Qld.Input
