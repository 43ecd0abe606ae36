import Mathlib.Data.Nat.Digits.Lemmas
import Qld.Lib.BitRank

/-!
# Finding a byte, a word at a time

The model of `find_byte` and `find_nul` of `elf/read/strtab.rs`.  Words are natural numbers
below `2 ^ 64`; subtraction wraps and complements are within 64 bits.

* `zeroMask` — the bit trick: bit 7 of the first zero byte is the lowest bit that is set;
* `zeroMask_digits` — **proved** for a word of any number of bytes, by induction on its bytes;
* `findByte_eq` — the search is `List.findIdx?`.
-/

namespace Qld.Elf.Read

open Qld.Lib

/-- `0x01` in each of `n` bytes. -/
def lo (n : ℕ) : ℕ := Nat.ofDigits 256 (List.replicate n 1)

/-- `0x80` in each of `n` bytes. -/
def hi (n : ℕ) : ℕ := Nat.ofDigits 256 (List.replicate n 128)

/-- `w.wrapping_sub(LO) & !w & HI`, for words of `n` bytes. -/
def zeroMask (n w : ℕ) : ℕ := (w + 256 ^ n - lo n) % 256 ^ n &&& (256 ^ n - 1 - w) &&& hi n

/-- `u64::from_le_bytes`. -/
def fromLeBytes (bytes : List UInt8) : ℕ := Nat.ofDigits 256 (bytes.map UInt8.toNat)

/-- Finds the first `needle` byte, a word at a time, from a position that is `base` bytes
into the buffer. -/
def findByteFrom (needle : UInt8) (base : ℕ) : List UInt8 → Option ℕ
  | b0 :: b1 :: b2 :: b3 :: b4 :: b5 :: b6 :: b7 :: rest =>
    let spread := lo 8 * needle.toNat % 2 ^ 64
    let w := fromLeBytes [b0, b1, b2, b3, b4, b5, b6, b7] ^^^ spread
    let mask := zeroMask 8 w
    if mask ≠ 0 then some (base + trailingZeros 64 mask / 8)
    else findByteFrom needle (base + 8) rest
  | rest => (rest.findIdx? fun b => b == needle).map fun i => base + i

/-- Finds the first `needle` byte. -/
def findByte (bytes : List UInt8) (needle : UInt8) : Option ℕ := findByteFrom needle 0 bytes

/-- Finds the first NUL byte. -/
def findNul (bytes : List UInt8) : Option ℕ := findByte bytes 0

example : lo 8 = 0x0101010101010101 ∧ hi 8 = 0x8080808080808080 := by decide

/-! ### The bit trick -/

/-- The mask of one byte, when no byte below it borrows. -/
theorem byteMask {b : ℕ} (hb : b < 256) :
    ((b + 256 - 1) % 256 &&& (255 - b) &&& 128) = if b = 0 then 128 else 0 := by
  interval_cases b <;> decide

theorem land_add_mul (a b c d : ℕ) (ha : a < 256) (hc : c < 256) :
    (a + 256 * b &&& (c + 256 * d)) = (a &&& c) + 256 * (b &&& d) := by
  have hlow : (a + 256 * b &&& (c + 256 * d)) % 2 ^ 8 = a &&& c := by
    rw [Nat.and_mod_two_pow]
    congr 1 <;> omega
  have hhigh : (a + 256 * b &&& (c + 256 * d)) / 2 ^ 8 = b &&& d := by
    rw [Nat.and_div_two_pow]
    congr 1 <;> omega
  omega

theorem lo_succ (n : ℕ) : lo (n + 1) = 1 + 256 * lo n := by
  rw [lo, List.replicate_succ, Nat.ofDigits_cons, lo]

theorem hi_succ (n : ℕ) : hi (n + 1) = 128 + 256 * hi n := by
  rw [hi, List.replicate_succ, Nat.ofDigits_cons, hi]

theorem lo_le (n : ℕ) : lo n ≤ 256 ^ n - 1 := by
  induction n with
  | zero => exact le_rfl
  | succ n ih =>
    have hpos := Nat.pow_pos (n := n) (show 0 < 256 by omega)
    rw [lo_succ, pow_succ]
    omega

/-- The mask of a word, from the mask of its first byte and that of the others: a first byte
that is not zero does not borrow. -/
theorem zeroMask_cons (n b w : ℕ) (hb : b < 256) (hw : w < 256 ^ n) (hne : b ≠ 0) :
    zeroMask (n + 1) (b + 256 * w) = 256 * zeroMask n w := by
  have hlen := lo_le n
  have hpos := Nat.pow_pos (n := n) (show 0 < 256 by omega)
  have hsub : (b + 256 * w + 256 ^ (n + 1) - lo (n + 1)) % 256 ^ (n + 1) =
      (b - 1) + 256 * ((w + 256 ^ n - lo n) % 256 ^ n) := by
    rw [lo_succ, pow_succ, show b + 256 * w + 256 ^ n * 256 - (1 + 256 * lo n) =
      (b - 1) + 256 * (w + 256 ^ n - lo n) by omega, Nat.mul_comm (256 ^ n) 256, Nat.mod_mul,
      show (b - 1 + 256 * (w + 256 ^ n - lo n)) / 256 = w + 256 ^ n - lo n by omega]
    omega
  have hnot : 256 ^ (n + 1) - 1 - (b + 256 * w) = (255 - b) + 256 * (256 ^ n - 1 - w) := by
    rw [pow_succ]
    omega
  have hbyte : (b - 1 &&& (255 - b) &&& 128) = 0 := by
    have := byteMask hb
    rw [if_neg hne] at this
    rw [← this]
    congr 2
    omega
  have hand : (b - 1 &&& (255 - b)) < 256 := Nat.lt_of_le_of_lt Nat.and_le_left (by omega)
  rw [zeroMask, hsub, hnot, hi_succ, land_add_mul _ _ _ _ (by omega) (by omega),
    land_add_mul _ _ _ _ hand (by omega), hbyte, Nat.zero_add, zeroMask]

/-- Bit 7 is the lowest bit of the mask of a word whose first byte is zero. -/
theorem zeroMask_zero (n w : ℕ) (hw : w < 256 ^ n) : zeroMask (n + 1) (256 * w) % 256 = 128 := by
  have hlen := lo_le n
  have hpos := Nat.pow_pos (n := n) (show 0 < 256 by omega)
  have hsub : (256 * w + 256 ^ (n + 1) - lo (n + 1)) % 256 ^ (n + 1) % 2 ^ 8 = 255 := by
    rw [lo_succ, pow_succ, Nat.mod_mod_of_dvd _ ⟨256 ^ n, by ring⟩]
    omega
  have hnot : (256 ^ (n + 1) - 1 - 256 * w) % 2 ^ 8 = 255 := by
    rw [pow_succ]
    omega
  have hmask : hi (n + 1) % 2 ^ 8 = 128 := by
    rw [hi_succ]
    omega
  rw [zeroMask, show 256 = 2 ^ 8 from rfl, Nat.and_mod_two_pow, Nat.and_mod_two_pow, hmask]
  rw [show (2 : ℕ) ^ 8 = 256 from rfl] at hsub hnot ⊢
  rw [hsub, hnot]
  decide

/-- A list of bytes, as a number. -/
abbrev Bytes (ds : List ℕ) : Prop := ∀ d ∈ ds, d < 256

theorem ofDigits_lt {ds : List ℕ} (hds : Bytes ds) : Nat.ofDigits 256 ds < 256 ^ ds.length :=
  Nat.ofDigits_lt_base_pow_length (by omega) hds

/-- **The mask finds the first zero byte.** -/
theorem zeroMask_digits (ds : List ℕ) : Bytes ds →
    (0 ∉ ds → zeroMask ds.length (Nat.ofDigits 256 ds) = 0) ∧
    (0 ∈ ds → (zeroMask ds.length (Nat.ofDigits 256 ds)).testBit (8 * ds.idxOf 0 + 7) = true ∧
      ∀ i < 8 * ds.idxOf 0 + 7,
        (zeroMask ds.length (Nat.ofDigits 256 ds)).testBit i = false) := by
  induction ds with
  | nil =>
    intro _
    refine ⟨fun _ => ?_, fun h => absurd h List.not_mem_nil⟩
    simp [zeroMask, hi]
  | cons b ds ih =>
    intro hds
    have hb : b < 256 := hds b List.mem_cons_self
    have hds' : Bytes ds := fun d hd => hds d (List.mem_cons_of_mem _ hd)
    have hlt := ofDigits_lt hds'
    obtain ⟨hnone, hsome⟩ := ih hds'
    rw [List.length_cons, Nat.ofDigits_cons]
    by_cases hzero : b = 0
    · subst hzero
      refine ⟨fun h => absurd List.mem_cons_self h, fun _ => ?_⟩
      rw [List.idxOf_cons_self, Nat.mul_zero, Nat.zero_add, Nat.zero_add]
      have hmask := zeroMask_zero ds.length _ hlt
      have hbit : ∀ i < 8, (zeroMask (ds.length + 1) (256 * Nat.ofDigits 256 ds)).testBit i =
          (128 : ℕ).testBit i := by
        intro i hi
        rw [← hmask, show 256 = 2 ^ 8 from rfl, Nat.testBit_mod_two_pow, decide_eq_true hi,
          Bool.true_and]
      refine ⟨(hbit 7 (by omega)).trans (by decide), fun i hi => (hbit i (by omega)).trans ?_⟩
      rw [show 128 = 2 ^ 7 from rfl, Nat.testBit_two_pow_of_ne (by omega)]
    · rw [zeroMask_cons ds.length b _ hb hlt hzero]
      refine ⟨fun h => ?_, fun h => ?_⟩
      · rw [hnone fun h' => h (List.mem_cons_of_mem _ h')]
      · have hmem : 0 ∈ ds := (List.mem_cons.mp h).resolve_left fun h => hzero h.symm
        obtain ⟨hbit, hlow⟩ := hsome hmem
        rw [List.idxOf_cons_ne _ hzero]
        constructor
        · rw [show 256 = 2 ^ 8 from rfl, Nat.testBit_two_pow_mul, ← hbit]
          simp only [ge_iff_le, show 8 ≤ 8 * (ds.idxOf 0 + 1) + 7 by omega, decide_true,
            Bool.true_and]
          congr 1
        · intro i hi
          rw [show 256 = 2 ^ 8 from rfl, Nat.testBit_two_pow_mul]
          by_cases h8 : i < 8
          · simp [h8]
          · rw [show (2 : ℕ) ^ 8 = 256 from rfl, hlow (i - 8) (by omega), Bool.and_false]

/-! ### The search -/

theorem xor_add_mul (a b c d : ℕ) (ha : a < 256) (hc : c < 256) :
    (a + 256 * b ^^^ (c + 256 * d)) = (a ^^^ c) + 256 * (b ^^^ d) := by
  have hlow : (a + 256 * b ^^^ (c + 256 * d)) % 2 ^ 8 = a ^^^ c := by
    rw [Nat.xor_mod_two_pow]
    congr 1 <;> omega
  have hhigh : (a + 256 * b ^^^ (c + 256 * d)) / 2 ^ 8 = b ^^^ d := by
    rw [Nat.xor_div_two_pow]
    congr 1 <;> omega
  omega

theorem ofDigits_xor (c : ℕ) (hc : c < 256) (ds : List ℕ) : Bytes ds →
    Nat.ofDigits 256 ds ^^^ Nat.ofDigits 256 (List.replicate ds.length c) =
      Nat.ofDigits 256 (ds.map (· ^^^ c)) := by
  induction ds with
  | nil => intro _; simp
  | cons b ds ih =>
    intro hds
    rw [List.length_cons, List.replicate_succ, Nat.ofDigits_cons, Nat.ofDigits_cons,
      List.map_cons, Nat.ofDigits_cons, xor_add_mul _ _ _ _ (hds b List.mem_cons_self) hc,
      ih fun d hd => hds d (List.mem_cons_of_mem _ hd)]

theorem lo_mul (n c : ℕ) : lo n * c = Nat.ofDigits 256 (List.replicate n c) := by
  induction n with
  | zero => simp [lo]
  | succ n ih =>
    rw [lo] at ih ⊢
    rw [List.replicate_succ, List.replicate_succ, Nat.ofDigits_cons, Nat.ofDigits_cons, ← ih]
    ring

theorem word_spec (needle : UInt8) (word : List UInt8) (hlen : word.length = 8) :
    let mask := zeroMask 8 (fromLeBytes word ^^^ lo 8 * needle.toNat % 2 ^ 64)
    (needle ∉ word → mask = 0) ∧
    (needle ∈ word → mask ≠ 0 ∧ trailingZeros 64 mask / 8 = word.idxOf needle) := by
  have hc : needle.toNat < 256 := needle.toNat_lt
  let ds := (word.map UInt8.toNat).map (· ^^^ needle.toNat)
  have hbytes : Bytes (word.map UInt8.toNat) := by
    intro d hd
    obtain ⟨b, _, rfl⟩ := List.mem_map.mp hd
    exact b.toNat_lt
  have hds : Bytes ds := by
    intro d hd
    obtain ⟨b, hb, rfl⟩ := List.mem_map.mp hd
    exact Nat.xor_lt_two_pow (n := 8) (hbytes b hb) hc
  have hlen' : ds.length = 8 := by simp [ds, hlen]
  have hword : fromLeBytes word ^^^ lo 8 * needle.toNat % 2 ^ 64 = Nat.ofDigits 256 ds := by
    have hrep : Bytes (List.replicate 8 needle.toNat) := by
      intro d hd
      rw [List.eq_of_mem_replicate hd]
      exact hc
    rw [lo_mul, Nat.mod_eq_of_lt (by simpa using ofDigits_lt hrep), fromLeBytes,
      ← ofDigits_xor _ hc _ hbytes]
    simp [hlen]
  have hidx : ∀ l : List UInt8,
      ((l.map UInt8.toNat).map (· ^^^ needle.toNat)).idxOf 0 = l.idxOf needle := by
    intro l
    induction l with
    | nil => rfl
    | cons b l ih =>
      by_cases hb : b = needle
      · subst hb
        simp
      · have hne : b.toNat ^^^ needle.toNat ≠ 0 := by
          rw [Ne, Nat.xor_eq_zero_iff]
          exact fun h => hb (UInt8.toNat_inj.mp h)
        rw [List.map_cons, List.map_cons, List.idxOf_cons_ne _ hne, List.idxOf_cons_ne _ hb, ih]
  have hmem : 0 ∈ ds ↔ needle ∈ word := by
    rw [← List.idxOf_lt_length_iff, ← List.idxOf_lt_length_iff, hidx, hlen', hlen]
  obtain ⟨hnone, hsome⟩ := zeroMask_digits ds hds
  rw [hlen'] at hnone hsome
  intro mask
  rw [show mask = zeroMask 8 (Nat.ofDigits 256 ds) by rw [← hword]]
  refine ⟨fun h => hnone (fun h' => h (hmem.mp h')), fun h => ?_⟩
  obtain ⟨hbit, hlow⟩ := hsome (hmem.mpr h)
  have hlt := List.idxOf_lt_length_iff.mpr (hmem.mpr h)
  rw [hlen'] at hlt
  refine ⟨fun hzero => ?_, ?_⟩
  · rw [hzero, Nat.zero_testBit] at hbit
    exact absurd hbit (by decide)
  · rw [trailingZeros_eq (by omega) hbit hlow, hidx]
    omega

theorem findIdx?_beq (needle : UInt8) (l : List UInt8) :
    (l.findIdx? fun b => b == needle) = if needle ∈ l then some (l.idxOf needle) else none := by
  induction l with
  | nil => rfl
  | cons b l ih =>
    rw [List.findIdx?_cons, ih]
    by_cases hb : b = needle
    · subst hb
      simp
    · rw [List.idxOf_cons_ne _ hb]
      by_cases hmem : needle ∈ l
      · simp [hb, hmem]
      · simp [hb, hmem, Ne.symm hb]

/-- **The search finds the first occurrence.** -/
theorem findByteFrom_eq (needle : UInt8) (base : ℕ) (bytes : List UInt8) :
    findByteFrom needle base bytes =
      (bytes.findIdx? fun b => b == needle).map fun i => base + i := by
  fun_induction findByteFrom needle base bytes with
  | case1 base b0 b1 b2 b3 b4 b5 b6 b7 rest spread w mask hmask =>
    obtain ⟨hnone, hsome⟩ := word_spec needle [b0, b1, b2, b3, b4, b5, b6, b7] rfl
    have hmem : needle ∈ [b0, b1, b2, b3, b4, b5, b6, b7] := by
      by_contra h
      exact hmask (hnone h)
    rw [show b0 :: b1 :: b2 :: b3 :: b4 :: b5 :: b6 :: b7 :: rest =
      [b0, b1, b2, b3, b4, b5, b6, b7] ++ rest from rfl, findIdx?_beq,
      if_pos (List.mem_append_left _ hmem), List.idxOf_append_of_mem hmem, ← (hsome hmem).2]
    rfl
  | case2 base b0 b1 b2 b3 b4 b5 b6 b7 rest spread w mask hmask ih =>
    obtain ⟨hnone, hsome⟩ := word_spec needle [b0, b1, b2, b3, b4, b5, b6, b7] rfl
    have hmem : needle ∉ [b0, b1, b2, b3, b4, b5, b6, b7] := fun h =>
      hmask (hsome h).1
    rw [ih, show b0 :: b1 :: b2 :: b3 :: b4 :: b5 :: b6 :: b7 :: rest =
      [b0, b1, b2, b3, b4, b5, b6, b7] ++ rest from rfl, findIdx?_beq, findIdx?_beq]
    by_cases hrest : needle ∈ rest
    · rw [if_pos hrest, if_pos (List.mem_append_right _ hrest),
        List.idxOf_append_of_notMem hmem, Option.map_some, Option.map_some, Option.some.injEq]
      simp only [List.length_cons, List.length_nil]
      omega
    · rw [if_neg hrest, if_neg fun h => (List.mem_append.mp h).elim hmem hrest]
      rfl
  | case3 base rest hshort => rfl

theorem findNul_eq (bytes : List UInt8) : findNul bytes = bytes.findIdx? fun b => b == 0 := by
  rw [findNul, findByte, findByteFrom_eq]
  simp

end Qld.Elf.Read
