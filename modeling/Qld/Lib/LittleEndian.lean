import Mathlib.Data.Nat.Bitwise
import Qld.Lib.Segments

/-!
# Little-endian fields

* `leBytes`, `leValue` — a number as bytes, the least significant first, and back;
* `StandsAt data pos bytes` — the bytes stand at a position; `readLe` — a number there;
* `readLe_of_standsAt` — a number that fits is read back;
* `standsAt_overwrite`, `standsAt_overwrite_of_apart` — what a store leaves;
* `or_shiftLeft`, `bits` — numbers packed into one word, and back;
* `land_mask`, `land_two_masks` — the fields a mask keeps;
* `bits_or`, `bits_and`, `bits_shiftRight`, ... — a field of a word that was put together.
-/

namespace Qld.Lib

/-! ### Numbers -/

/-- A number as bytes, the least significant first. -/
def leBytes : ℕ → ℕ → List UInt8
  | 0, _ => []
  | n + 1, value => UInt8.ofNat (value % 256) :: leBytes n (value / 256)

/-- The number of some bytes, the least significant first. -/
def leValue : List UInt8 → ℕ
  | [] => 0
  | b :: bytes => b.toNat + 256 * leValue bytes

@[simp] theorem length_leBytes (n value : ℕ) : (leBytes n value).length = n := by
  induction n generalizing value with
  | zero => rfl
  | succ n ih => rw [leBytes, List.length_cons, ih]

/-- **A number that fits is read back.** -/
theorem leValue_leBytes (n value : ℕ) : leValue (leBytes n value) = value % 256 ^ n := by
  induction n generalizing value with
  | zero => rw [leBytes, leValue, pow_zero, Nat.mod_one]
  | succ n ih =>
    have hbyte : (UInt8.ofNat (value % 256)).toNat = value % 256 := by
      rw [UInt8.toNat_ofNat']
      exact Nat.mod_mod _ _
    rw [leBytes, leValue, ih, hbyte, Nat.pow_succ, Nat.mul_comm _ 256, Nat.mod_mul]

theorem leValue_lt (data : List UInt8) : leValue data < 256 ^ data.length := by
  induction data with
  | nil => simp [leValue]
  | cons b data ih =>
    have hb := b.toNat_lt
    rw [leValue, List.length_cons, Nat.pow_succ]
    omega

/-! ### Fields -/

/-- The bytes stand at a position of the data. -/
def StandsAt (data : List UInt8) (pos : ℕ) (bytes : List UInt8) : Prop :=
  ∀ k < bytes.length, data[pos + k]? = bytes[k]?

/-- The number of `width` bytes at a position. -/
def readLe (width : ℕ) (data : List UInt8) (pos : ℕ) : Option ℕ :=
  if pos + width ≤ data.length then some (leValue ((data.drop pos).take width)) else none

variable {data bytes : List UInt8} {pos width value k m l w : ℕ}

theorem StandsAt.le_length (h : StandsAt data pos bytes) (hne : 0 < bytes.length) :
    pos + bytes.length ≤ data.length := by
  have hlast := h (bytes.length - 1) (by omega)
  rw [List.getElem?_eq_getElem (by omega : bytes.length - 1 < bytes.length)] at hlast
  have := (List.getElem?_eq_some_iff.mp hlast).1
  omega

theorem StandsAt.take_drop (h : StandsAt data pos bytes) :
    (data.drop pos).take bytes.length = bytes := by
  apply List.ext_getElem?
  intro k
  rw [List.getElem?_take, List.getElem?_drop]
  split
  · next hk => exact h k hk
  · next hk => rw [List.getElem?_eq_none (by omega)]

theorem readLe_of_standsAt (h : StandsAt data pos (leBytes width value)) (hwidth : 0 < width)
    (hvalue : value < 256 ^ width) : readLe width data pos = some value := by
  have hlen := h.le_length (by rw [length_leBytes]; exact hwidth)
  have hbytes := h.take_drop
  rw [length_leBytes] at hlen hbytes
  rw [readLe, if_pos hlen, hbytes, leValue_leBytes, Nat.mod_eq_of_lt hvalue]

theorem readLe_lt (h : readLe width data pos = some value) :
    value < 2 ^ (8 * width) := by
  obtain ⟨hlen, h⟩ := Option.ite_none_right_eq_some.mp h
  have hlt := leValue_lt ((data.drop pos).take width)
  rw [List.length_take_of_le (by rw [List.length_drop]; omega), Option.some.inj h] at hlt
  rwa [Nat.pow_mul]

theorem standsAt_append (before bytes after : List UInt8) :
    StandsAt (before ++ bytes ++ after) before.length bytes := by
  intro k hk
  rw [List.getElem?_append_left (by rw [List.length_append]; omega),
    List.getElem?_append_right (Nat.le_add_right _ _), Nat.add_sub_cancel_left]

theorem standsAt_append_iff {first second : List UInt8} :
    StandsAt data pos (first ++ second) ↔
      StandsAt data pos first ∧ StandsAt data (pos + first.length) second := by
  refine ⟨fun h => ⟨fun k hk => ?_, fun k hk => ?_⟩, fun h k hk => ?_⟩
  · rw [h k (by rw [List.length_append]; omega), List.getElem?_append_left hk]
  · rw [Nat.add_assoc, h (first.length + k) (by rw [List.length_append]; omega),
      List.getElem?_append_right (Nat.le_add_right _ _), Nat.add_sub_cancel_left]
  · rw [List.length_append] at hk
    rw [List.getElem?_append]
    split
    · next hlt => exact h.1 k hlt
    · have hsecond := h.2 (k - first.length) (by omega)
      rw [Nat.add_assoc, Nat.add_sub_cancel' (by omega)] at hsecond
      exact hsecond

theorem standsAt_leBytes_append_iff {rest : List UInt8} :
    StandsAt data pos (leBytes width value ++ rest) ↔
      StandsAt data pos (leBytes width value) ∧ StandsAt data (pos + width) rest := by
  rw [standsAt_append_iff, length_leBytes]

theorem standsAt_self (data : List UInt8) : StandsAt data 0 data := fun k _ => by rw [Nat.zero_add]

theorem StandsAt.append (h : StandsAt data pos bytes) (after : List UInt8) :
    StandsAt (data ++ after) pos bytes := by
  intro k hk
  have hget := h k hk
  rw [List.getElem?_eq_getElem hk] at hget ⊢
  exact List.getElem?_append_left (List.getElem?_eq_some_iff.mp hget).1 ▸ hget

theorem StandsAt.append_left (h : StandsAt data pos bytes) (before : List UInt8) :
    StandsAt (before ++ data) (before.length + pos) bytes := by
  intro k hk
  rw [List.getElem?_append_right (by omega), Nat.add_assoc, Nat.add_sub_cancel_left]
  exact h k hk

/-- What stands inside of something that stands in the data. -/
theorem StandsAt.trans {block : List UInt8} (h : StandsAt data pos block)
    (hin : StandsAt block k bytes) (hlen : 0 < bytes.length) : StandsAt data (pos + k) bytes := by
  have hle := hin.le_length hlen
  intro m hm
  rw [Nat.add_assoc, h (k + m) (by omega)]
  exact hin m hm

/-- The field of an element, where each element takes `width` bytes. -/
theorem standsAt_flatMap {α : Type*} {f : α → List UInt8} (hwidth : ∀ x, (f x).length = width)
    {l : List α} {x : α} (h : l[k]? = some x) :
    StandsAt (l.flatMap f) (k * width) (f x) := by
  obtain ⟨hk, rfl⟩ := List.getElem?_eq_some_iff.mp h
  have hlen : ((l.take k).flatMap f).length = k * width := by
    rw [List.length_flatMap, List.map_congr_left fun x _ => hwidth x, List.map_const',
      List.sum_replicate_nat, List.length_take, Nat.min_eq_left hk.le]
  have hsplit : l.flatMap f =
      (l.take k).flatMap f ++ f (l.get ⟨k, hk⟩) ++ (l.drop (k + 1)).flatMap f := by
    rw [List.append_assoc, ← List.flatMap_cons, ← List.flatMap_append]
    congr 1
    exact (List.take_append_drop k l).symm.trans (by rw [List.drop_eq_getElem_cons hk]; rfl)
  rw [hsplit, ← hlen]
  exact standsAt_append _ _ _

theorem standsAt_overwrite (h : pos + bytes.length ≤ data.length) :
    StandsAt (overwrite data pos bytes) pos bytes := by
  intro k hk
  rw [getElem?_overwrite h, if_pos (by omega), Nat.add_sub_cancel_left]

/-- **A store elsewhere.** -/
theorem StandsAt.overwrite {other : List UInt8} {at_ : ℕ} (h : StandsAt data pos bytes)
    (hfits : at_ + other.length ≤ data.length)
    (happart : pos + bytes.length ≤ at_ ∨ at_ + other.length ≤ pos) :
    StandsAt (overwrite data at_ other) pos bytes := by
  intro k hk
  rw [getElem?_overwrite hfits, if_neg (by omega)]
  exact h k hk

/-! ### Packed words -/

/-- `width` bits of a word, from bit `low` on. -/
def bits (word low width : ℕ) : ℕ := word / 2 ^ low % 2 ^ width

theorem or_shiftLeft {a : ℕ} (b : ℕ) (h : a < 2 ^ k) : a ||| b <<< k = a + b * 2 ^ k := by
  rw [Nat.or_comm, ← Nat.shiftLeft_add_eq_or_of_lt h, Nat.shiftLeft_eq, Nat.add_comm]

theorem land_mask (x m k : ℕ) : x &&& (2 ^ m - 1) <<< k = x / 2 ^ k % 2 ^ m * 2 ^ k := by
  rw [← Nat.shiftRight_eq_div_pow, ← Nat.and_two_pow_sub_one_eq_mod, ← Nat.shiftLeft_eq]
  apply Nat.eq_of_testBit_eq
  intro i
  rw [Nat.testBit_land, Nat.testBit_shiftLeft, Nat.testBit_shiftLeft, Nat.testBit_land,
    Nat.testBit_shiftRight]
  by_cases h : k ≤ i
  · rw [Nat.add_sub_cancel' h]
    simp only [h, decide_true, Bool.true_and]
  · simp only [h, decide_false, Bool.false_and, Bool.and_false]

theorem land_two_masks (x a b : ℕ) {n : ℕ} (hk : l + n ≤ k) (ha : a = (2 ^ m - 1) <<< k)
    (hb : b = (2 ^ n - 1) <<< l) :
    x &&& (a ||| b) = x / 2 ^ l % 2 ^ n * 2 ^ l + x / 2 ^ k % 2 ^ m * 2 ^ k := by
  have hlt : x / 2 ^ l % 2 ^ n * 2 ^ l < 2 ^ k := by
    calc x / 2 ^ l % 2 ^ n * 2 ^ l < 2 ^ n * 2 ^ l :=
          Nat.mul_lt_mul_of_pos_right (Nat.mod_lt _ (Nat.two_pow_pos _)) (Nat.two_pow_pos _)
      _ = 2 ^ (l + n) := by rw [← Nat.pow_add, Nat.add_comm]
      _ ≤ 2 ^ k := Nat.pow_le_pow_right (by decide) hk
  rw [Nat.and_or_distrib_left, ha, hb, land_mask, land_mask, Nat.or_comm,
    ← Nat.shiftLeft_eq (_ % 2 ^ m), or_shiftLeft _ hlt, Nat.shiftLeft_eq]

/-- **A field of a packed word.** -/
theorem bits_eq {word lo : ℕ} (low value rest : ℕ)
    (hword : word = low + (value + rest * 2 ^ width) * 2 ^ lo) (hlow : low < 2 ^ lo)
    (hvalue : value < 2 ^ width) : bits word lo width = value := by
  rw [bits, hword, Nat.add_mul_div_right _ _ (Nat.two_pow_pos lo), Nat.div_eq_of_lt hlow,
    Nat.zero_add, Nat.add_mul_mod_self_right, Nat.mod_eq_of_lt hvalue]

/-! ### Fields through the bit operations -/

theorem bits_lt (x l w : ℕ) : bits x l w < 2 ^ w := Nat.mod_lt _ (Nat.two_pow_pos w)

/-- The lowest bits of a number: a field, and the bits below it. -/
theorem mod_bits (x l n : ℕ) : x % 2 ^ (l + n) = bits x l n * 2 ^ l + x % 2 ^ l := by
  rw [Nat.pow_add, Nat.mod_mul, bits, Nat.mul_comm, Nat.add_comm]

@[simp] theorem bits_lt_two (x l : ℕ) : bits x l 1 < 2 := bits_lt x l 1

@[simp] theorem bits_mod_two (x l : ℕ) : bits x l 1 % 2 = bits x l 1 :=
  Nat.mod_eq_of_lt (bits_lt_two x l)

@[simp] theorem bits_bits_self (x l w : ℕ) : bits (bits x l w) 0 w = bits x l w := by
  rw [bits, Nat.pow_zero, Nat.div_one, Nat.mod_eq_of_lt (bits_lt x l w)]

theorem bits_eq_zero {x : ℕ} (w : ℕ) (h : x < 2 ^ l) : bits x l w = 0 := by
  rw [bits, Nat.div_eq_of_lt h, Nat.zero_mod]

theorem bits_bits_of_le {l' : ℕ} (x l w' : ℕ) (h : w ≤ l') : bits (bits x l w) l' w' = 0 :=
  bits_eq_zero w' ((bits_lt x l w).trans_le (Nat.pow_le_pow_right (by decide) h))

theorem bits_mod (x : ℕ) {p n : ℕ} (h : p + n ≤ m) : bits (x % 2 ^ m) p n = bits x p n := by
  obtain ⟨d, rfl⟩ := Nat.exists_eq_add_of_le h
  rw [bits, bits, Nat.add_assoc, Nat.pow_add, Nat.mod_mul_right_div_self]
  exact Nat.mod_mod_of_dvd _ (Nat.pow_dvd_pow 2 (Nat.le_add_right n d))

@[simp] theorem bits_or (x y l w : ℕ) : bits (x ||| y) l w = bits x l w ||| bits y l w := by
  rw [bits, bits, bits, ← Nat.shiftRight_eq_div_pow, Nat.shiftRight_or_distrib,
    Nat.or_mod_two_pow, Nat.shiftRight_eq_div_pow, Nat.shiftRight_eq_div_pow]

@[simp] theorem bits_and (x y l w : ℕ) : bits (x &&& y) l w = bits x l w &&& bits y l w := by
  rw [bits, bits, bits, ← Nat.shiftRight_eq_div_pow, Nat.shiftRight_and_distrib,
    Nat.and_mod_two_pow, Nat.shiftRight_eq_div_pow, Nat.shiftRight_eq_div_pow]

@[simp] theorem bits_xor (x y l w : ℕ) : bits (x ^^^ y) l w = bits x l w ^^^ bits y l w := by
  rw [bits, bits, bits, ← Nat.shiftRight_eq_div_pow, Nat.shiftRight_xor_distrib,
    Nat.xor_mod_two_pow, Nat.shiftRight_eq_div_pow, Nat.shiftRight_eq_div_pow]

@[simp] theorem bits_shiftRight (x k l w : ℕ) : bits (x >>> k) l w = bits x (k + l) w := by
  rw [bits, bits, Nat.shiftRight_eq_div_pow, Nat.div_div_eq_div_mul, ← Nat.pow_add]

theorem bits_shiftLeft (x w : ℕ) (h : k ≤ l) : bits (x <<< k) l w = bits x (l - k) w := by
  obtain ⟨d, rfl⟩ := Nat.exists_eq_add_of_le h
  rw [bits, bits, Nat.shiftLeft_eq, Nat.add_sub_cancel_left, Nat.pow_add, ← Nat.div_div_eq_div_mul,
    Nat.mul_div_cancel _ (Nat.two_pow_pos k)]

theorem bits_shiftLeft_low (x : ℕ) (h : l + w ≤ k) : bits (x <<< k) l w = 0 := by
  obtain ⟨d, rfl⟩ := Nat.exists_eq_add_of_le h
  rw [bits, Nat.shiftLeft_eq, Nat.pow_add, Nat.pow_add, Nat.mul_comm, Nat.mul_assoc, Nat.mul_assoc,
    Nat.mul_div_cancel_left _ (Nat.two_pow_pos l), Nat.mul_mod_right]

@[simp] theorem bits_ofNat (n l w : ℕ) :
    bits (no_index (OfNat.ofNat n)) l w = OfNat.ofNat n / 2 ^ l % 2 ^ w := rfl

@[simp] theorem bits_land_mask (x l : ℕ) (h : m = 2 ^ w - 1) : bits x l w &&& m = bits x l w := by
  rw [h, Nat.and_two_pow_sub_one_eq_mod, bits, Nat.mod_mod]

/-! ### The number of some bytes -/

theorem leValue_take (data : List UInt8) : ∀ n, leValue (data.take n) = leValue data % 256 ^ n := by
  induction data with
  | nil => simp [leValue]
  | cons b data ih =>
    intro n
    cases n with
    | zero => simp [leValue, Nat.mod_one]
    | succ n =>
      have hb := b.toNat_lt
      rw [List.take_succ_cons, leValue, ih, leValue, Nat.pow_succ', Nat.mod_mul]
      congr 1
      · omega
      · congr 2
        omega

theorem leValue_append (data rest : List UInt8) :
    leValue (data ++ rest) = leValue data + 256 ^ data.length * leValue rest := by
  induction data with
  | nil => simp [leValue]
  | cons b data ih =>
    rw [List.cons_append, leValue, ih, leValue, List.length_cons, Nat.pow_succ']
    rw [Nat.mul_add, Nat.add_assoc, Nat.mul_assoc]

end Qld.Lib
