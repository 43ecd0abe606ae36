import Mathlib.Data.List.Induction
import Mathlib.Data.Nat.Bitwise
import Qld.Lib.Streaming

/-!
# Adler-32

The checksum is two sums modulo 65521: the sum of the bytes, and the sum of the sums.  They are
reduced once in a block.

* `adler32Update`, `adler32Combine` — the checksum continued, and that of two strings;
* `sums`, `reference` — the sums without a bound, and the checksum a byte at a time;
* `sums_lt` — no sum of a block needs more than 32 bits;
* `adler32_correct` — the checksum is the one a byte at a time, and combines.
-/

namespace Qld.Debug.Adler32

open Qld.Lib

/-! ### The checksum -/

/-- The largest prime below `2 ^ 16`. -/
def MOD : ℕ := 65521

/-- The most bytes that are summed before a reduction. -/
def NMAX : ℕ := 5552

/-- The checksum of the empty string. -/
def ADLER32_INIT : UInt32 := 1

/-- One step of four bytes. -/
def quadStep (s : UInt32 × UInt32) : List UInt8 → UInt32 × UInt32
  | [q0, q1, q2, q3] =>
    let b := s.2 + s.1 * 4 + q0.toUInt32 * 4 + q1.toUInt32 * 3 + q2.toUInt32 * 2 + q3.toUInt32
    (s.1 + q0.toUInt32 + q1.toUInt32 + q2.toUInt32 + q3.toUInt32, b)
  | _ => s

def tailStep (s : UInt32 × UInt32) (byte : UInt8) : UInt32 × UInt32 :=
  (s.1 + byte.toUInt32, s.2 + (s.1 + byte.toUInt32))

/-- The sums of a block, before they are reduced. -/
def blockSums (s : UInt32 × UInt32) (block : List UInt8) : UInt32 × UInt32 :=
  (remainder 4 block).foldl tailStep ((blocks 4 block).foldl quadStep s)

def blockStep (s : UInt32 × UInt32) (block : List UInt8) : UInt32 × UInt32 :=
  let t := blockSums s block
  (t.1 % UInt32.ofNat MOD, t.2 % UInt32.ofNat MOD)

/-- `slice::chunks`. -/
def chunks (n : ℕ) (data : List UInt8) : List (List UInt8) :=
  blocks n data ++ if remainder n data = [] then [] else [remainder n data]

/-- Continues a checksum. -/
def adler32Update (adler : UInt32) (data : List UInt8) : UInt32 :=
  let (a, b) := (chunks NMAX data).foldl blockStep (adler &&& 0xffff, adler >>> 16)
  b <<< 16 ||| a

def adler32 (data : List UInt8) : UInt32 := adler32Update ADLER32_INIT data

/-- `u32::try_from`, or zero. -/
def toU32OrZero (x : UInt64) : UInt32 := if x.toNat < 2 ^ 32 then x.toUInt32 else 0

/-- The checksum of two strings from theirs; the second is `len2` bytes long. -/
def adler32Combine (adler1 adler2 : UInt32) (len2 : UInt64) : UInt32 :=
  let M : UInt64 := UInt64.ofNat MOD
  let rem := len2 % M
  let a1 := (adler1 &&& 0xffff).toUInt64 % M
  let b1 := (adler1 >>> 16).toUInt64 % M
  let a2 := (adler2 &&& 0xffff).toUInt64 % M
  let b2 := (adler2 >>> 16).toUInt64 % M
  let a := (a1 + a2 + (M - 1)) % M
  let b := (b1 + b2 + rem * a1 % M + M - rem) % M
  toU32OrZero b <<< 16 ||| toU32OrZero a

/-! ### A byte at a time -/

/-- The sums of some bytes, without a bound. -/
def sums (s : ℕ × ℕ) (data : List UInt8) : ℕ × ℕ :=
  data.foldl (fun t byte => (t.1 + byte.toNat, t.2 + (t.1 + byte.toNat))) s

/-- Both sums modulo 65521 after every byte. -/
def reduced (s : ℕ × ℕ) (data : List UInt8) : ℕ × ℕ :=
  data.foldl (fun t byte =>
    ((t.1 + byte.toNat) % MOD, (t.2 + (t.1 + byte.toNat) % MOD) % MOD)) s

/-- The halves of a checksum, the sum of the bytes first. -/
def halves (adler : ℕ) : ℕ × ℕ := (adler % 2 ^ 16, adler / 2 ^ 16)

/-- The checksum continued a byte at a time. -/
def reference (adler : ℕ) (data : List UInt8) : ℕ :=
  (reduced (halves adler) data).2 * 2 ^ 16 + (reduced (halves adler) data).1

/-! ### The sums of a block -/

/-- Sums as they stand in two words of 32 bits. -/
def words (s : ℕ × ℕ) : UInt32 × UInt32 := (UInt32.ofNat s.1, UInt32.ofNat s.2)

theorem toNat_ofNat {n : ℕ} (h : n < 2 ^ 32) : (UInt32.ofNat n).toNat = n :=
  UInt32.toNat_ofNat_of_lt' h

theorem sums_cons (s : ℕ × ℕ) (byte : UInt8) (data : List UInt8) : sums s (byte :: data) =
    sums (s.1 + byte.toNat, s.2 + (s.1 + byte.toNat)) data := rfl

theorem sums_singleton (s : ℕ × ℕ) (byte : UInt8) : sums s [byte] =
    (s.1 + byte.toNat, s.2 + (s.1 + byte.toNat)) := rfl

theorem sums_append (s : ℕ × ℕ) (x y : List UInt8) : sums s (x ++ y) = sums (sums s x) y :=
  List.foldl_append

theorem tailStep_words (s : ℕ × ℕ) (byte : UInt8) :
    tailStep (words s) byte = words (sums s [byte]) := by
  simp [tailStep, words, sums, UInt32.ofNat_add]

theorem quadStep_words (s : ℕ × ℕ) {q : List UInt8} (h : q.length = 4) :
    quadStep (words s) q = words (sums s q) := by
  obtain ⟨q0, q1, q2, q3, rfl⟩ : ∃ q0 q1 q2 q3, q = [q0, q1, q2, q3] := by
    match q, h with
    | [q0, q1, q2, q3], _ => exact ⟨q0, q1, q2, q3, rfl⟩
  have hb : ∀ s2 s1 q0 q1 q2 q3 : ℕ,
      s2 + (s1 + q0) + (s1 + q0 + q1) + (s1 + q0 + q1 + q2) + (s1 + q0 + q1 + q2 + q3) =
        s2 + s1 * 4 + q0 * 4 + q1 * 3 + q2 * 2 + q3 := by
    intros
    omega
  simp only [quadStep, words, sums, List.foldl_cons, List.foldl_nil, hb, UInt32.ofNat_add,
    UInt32.ofNat_mul, UInt32.ofNat_uInt8ToNat]
  rfl

/-- The sums in words are the sums without a bound, modulo `2 ^ 32`. -/
theorem blockSums_words (s : ℕ × ℕ) (block : List UInt8) :
    blockSums (words s) block = words (sums s block) := by
  have hquads : ∀ (qs : List (List UInt8)) (t : ℕ × ℕ), (∀ q ∈ qs, q.length = 4) →
      qs.foldl quadStep (words t) = words (sums t qs.flatten) := by
    intro qs
    induction qs with
    | nil => exact fun _ _ => rfl
    | cons q qs ih =>
      intro t h
      rw [List.foldl_cons, quadStep_words t (h q List.mem_cons_self), List.flatten_cons,
        sums_append, ih _ fun q' hq' => h q' (List.mem_cons_of_mem _ hq')]
  have htail : ∀ (tail : List UInt8) (t : ℕ × ℕ),
      tail.foldl tailStep (words t) = words (sums t tail) := by
    intro tail
    induction tail with
    | nil => exact fun _ => rfl
    | cons byte tail ih =>
      intro t
      rw [List.foldl_cons, tailStep_words, ih, ← sums_append]
      rfl
  rw [blockSums, hquads _ s fun q hq => length_of_mem_blocks hq, htail, ← sums_append,
    flatten_blocks_append (by decide)]

theorem sums_le (s : ℕ × ℕ) (data : List UInt8) :
    (sums s data).1 ≤ s.1 + 255 * data.length ∧
      2 * (sums s data).2 ≤
        2 * s.2 + 2 * (data.length * s.1) + 255 * (data.length * (data.length + 1)) := by
  induction data generalizing s with
  | nil => simp [sums]
  | cons byte data ih =>
    obtain ⟨hfst, hsnd⟩ := ih (s.1 + byte.toNat, s.2 + (s.1 + byte.toNat))
    have hbyte : byte.toNat ≤ 255 := Nat.le_of_lt_succ byte.toNat_lt
    have hmul := Nat.mul_le_mul_left (data.length + 1) hbyte
    rw [sums_cons, List.length_cons]
    simp only at hfst hsnd
    refine ⟨by omega, Nat.le_trans hsnd ?_⟩
    simp only [Nat.mul_add, Nat.add_mul, Nat.mul_one, Nat.one_mul] at hmul ⊢
    omega

variable {s : ℕ × ℕ} {data : List UInt8}

/-- **No sum of a block needs more than 32 bits**, from any halves of a checksum. -/
theorem sums_lt (h1 : s.1 < 2 ^ 16) (h2 : s.2 < 2 ^ 16) (hlen : data.length ≤ NMAX) :
    (sums s data).1 < 2 ^ 32 ∧ (sums s data).2 < 2 ^ 32 := by
  obtain ⟨hfst, hsnd⟩ := sums_le s data
  have hlen : data.length ≤ 5552 := hlen
  have hs : data.length * s.1 ≤ 5552 * 65535 := Nat.mul_le_mul hlen (by omega)
  have hn : data.length * (data.length + 1) ≤ 5552 * 5553 := Nat.mul_le_mul hlen (by omega)
  omega

/-! ### The checksum a byte at a time -/

theorem reduced_append (s : ℕ × ℕ) (x y : List UInt8) :
    reduced s (x ++ y) = reduced (reduced s x) y := List.foldl_append

theorem reduced_singleton (s : ℕ × ℕ) (byte : UInt8) : reduced s [byte] =
    ((s.1 + byte.toNat) % MOD, (s.2 + (s.1 + byte.toNat) % MOD) % MOD) := rfl

theorem reduced_modEq (s : ℕ × ℕ) (data : List UInt8) :
    (reduced s data).1 % MOD = (sums s data).1 % MOD ∧
      (reduced s data).2 % MOD = (sums s data).2 % MOD := by
  induction data using List.reverseRecOn with
  | nil => exact ⟨rfl, rfl⟩
  | append_singleton data byte ih =>
    have hfst : ((reduced s data).1 + byte.toNat) % MOD = ((sums s data).1 + byte.toNat) % MOD := by
      rw [Nat.add_mod, ih.1, ← Nat.add_mod]
    rw [reduced_append, sums_append, reduced_singleton, sums_singleton]
    simp only [Nat.mod_mod, hfst, true_and]
    rw [Nat.add_mod_mod, Nat.add_mod, ih.2, ← Nat.add_mod]

theorem reduced_eq (s : ℕ × ℕ) (h : data ≠ []) :
    reduced s data = ((sums s data).1 % MOD, (sums s data).2 % MOD) := by
  obtain ⟨hfst, hsnd⟩ := reduced_modEq s data
  rw [← hfst, ← hsnd]
  obtain ⟨init, byte, rfl⟩ := List.eq_nil_or_concat' data |>.resolve_left h
  rw [reduced_append, reduced_singleton]
  simp only [Nat.mod_mod]

theorem blockStep_words (h1 : s.1 < 2 ^ 16) (h2 : s.2 < 2 ^ 16) {block : List UInt8}
    (hnil : block ≠ []) (hlen : block.length ≤ NMAX) :
    blockStep (words s) block = words (reduced s block) := by
  obtain ⟨hfst, hsnd⟩ := sums_lt h1 h2 hlen
  have hmod : ∀ {n : ℕ}, n < 2 ^ 32 →
      UInt32.ofNat n % UInt32.ofNat MOD = UInt32.ofNat (n % MOD) := by
    intro n hn
    apply UInt32.toNat.inj
    have hM : (UInt32.ofNat MOD).toNat = MOD := rfl
    rw [UInt32.toNat_mod, toNat_ofNat hn, hM, toNat_ofNat]
    exact Nat.lt_of_le_of_lt (Nat.mod_le _ _) hn
  rw [blockStep, blockSums_words, reduced_eq s hnil]
  simp only [words, hmod hfst, hmod hsnd]

theorem reduced_lt (h1 : s.1 < 2 ^ 16) (h2 : s.2 < 2 ^ 16) (data : List UInt8) :
    (reduced s data).1 < 2 ^ 16 ∧ (reduced s data).2 < 2 ^ 16 := by
  by_cases hnil : data = []
  · subst hnil
    exact ⟨h1, h2⟩
  · have hM : MOD < 2 ^ 16 := by decide
    rw [reduced_eq s hnil]
    exact ⟨Nat.lt_trans (Nat.mod_lt _ (by decide)) hM, Nat.lt_trans (Nat.mod_lt _ (by decide)) hM⟩

theorem foldl_blockStep (blocks : List (List UInt8)) (h1 : s.1 < 2 ^ 16) (h2 : s.2 < 2 ^ 16)
    (h : ∀ block ∈ blocks, block ≠ [] ∧ block.length ≤ NMAX) :
    blocks.foldl blockStep (words s) = words (reduced s blocks.flatten) := by
  induction blocks generalizing s with
  | nil => rfl
  | cons block blocks ih =>
    obtain ⟨hnil, hlen⟩ := h block List.mem_cons_self
    obtain ⟨hfst, hsnd⟩ := reduced_lt h1 h2 block
    rw [List.foldl_cons, blockStep_words h1 h2 hnil hlen, List.flatten_cons, reduced_append,
      ih hfst hsnd fun b hb => h b (List.mem_cons_of_mem _ hb)]

theorem of_mem_chunks {block : List UInt8} (h : block ∈ chunks NMAX data) :
    block ≠ [] ∧ block.length ≤ NMAX := by
  rcases List.mem_append.mp h with h | h
  · have hlen := length_of_mem_blocks h
    exact ⟨List.ne_nil_of_length_pos (by rw [hlen]; decide), Nat.le_of_eq hlen⟩
  · split at h
    · exact absurd h List.not_mem_nil
    · next hnil =>
      obtain rfl := List.mem_singleton.mp h
      exact ⟨hnil, Nat.le_of_lt (length_remainder_lt (by decide))⟩

theorem flatten_chunks (data : List UInt8) : (chunks NMAX data).flatten = data := by
  have happ := flatten_blocks_append (n := NMAX) (by decide) data
  rw [chunks, List.flatten_append]
  split
  · next hnil => rw [hnil] at happ; exact happ
  · rw [List.flatten_singleton, happ]

variable (adler : UInt32)

theorem halves_lt :
    (halves adler.toNat).1 < 2 ^ 16 ∧ (halves adler.toNat).2 < 2 ^ 16 := by
  have hlt := adler.toNat_lt
  rw [halves]
  omega

theorem words_halves :
    (adler &&& 0xffff, adler >>> 16) = words (halves adler.toNat) := by
  have hlow : adler &&& 0xffff = UInt32.ofNat (adler.toNat % 2 ^ 16) := by
    apply UInt32.toNat.inj
    rw [UInt32.toNat_and, toNat_ofNat (by have := adler.toNat_lt; omega)]
    exact Nat.and_two_pow_sub_one_eq_mod _ 16
  have hhigh : adler >>> 16 = UInt32.ofNat (adler.toNat / 2 ^ 16) := by
    apply UInt32.toNat.inj
    rw [UInt32.toNat_shiftRight, toNat_ofNat (by have := adler.toNat_lt; omega)]
    exact Nat.shiftRight_eq_div_pow _ _
  rw [hlow, hhigh]
  rfl

theorem toNat_joined (h1 : s.1 < 2 ^ 16) (h2 : s.2 < 2 ^ 16) :
    ((words s).2 <<< 16 ||| (words s).1).toNat = s.2 * 2 ^ 16 + s.1 := by
  have hb : (UInt32.ofNat s.2).toNat = s.2 := toNat_ofNat (by omega)
  have ha : (UInt32.ofNat s.1).toNat = s.1 := toNat_ofNat (by omega)
  rw [words, UInt32.toNat_or, UInt32.toNat_shiftLeft, ha, hb]
  change (s.2 <<< 16) % 2 ^ 32 ||| s.1 = _
  rw [Nat.shiftLeft_eq, Nat.mod_eq_of_lt (by omega), ← Nat.shiftLeft_eq,
    ← Nat.shiftLeft_add_eq_or_of_lt h1, Nat.shiftLeft_eq]

theorem toNat_adler32Update (data : List UInt8) :
    (adler32Update adler data).toNat = reference adler.toNat data := by
  obtain ⟨h1, h2⟩ := halves_lt adler
  obtain ⟨hfst, hsnd⟩ := reduced_lt h1 h2 data
  have hfold := foldl_blockStep (chunks NMAX data) h1 h2 fun _ => of_mem_chunks
  rw [adler32Update, words_halves, hfold, flatten_chunks]
  exact toNat_joined hfst hsnd

/-! ### Two strings -/

theorem sums_shift (s : ℕ × ℕ) (data : List UInt8) :
    sums s data =
      (s.1 + (sums (0, 0) data).1, s.2 + data.length * s.1 + (sums (0, 0) data).2) := by
  induction data using List.reverseRecOn with
  | nil => simp [sums]
  | append_singleton data byte ih =>
    rw [sums_append, sums_append, sums_singleton, sums_singleton, ih, List.length_append,
      List.length_singleton, Nat.succ_mul]
    ext <;> simp only <;> omega

theorem halves_adler32 (data : List UInt8) :
    halves (adler32 data).toNat = reduced (1, 0) data := by
  obtain ⟨h1, h2⟩ := reduced_lt (s := (1, 0)) (by decide) (by decide) data
  have href : (adler32 data).toNat =
      (reduced (1, 0) data).2 * 2 ^ 16 + (reduced (1, 0) data).1 :=
    toNat_adler32Update ADLER32_INIT data
  rw [halves, href]
  ext <;> simp only <;> omega

theorem reduced_adler32 (data : List UInt8) :
    reduced (1, 0) data = ((sums (1, 0) data).1 % MOD, (sums (1, 0) data).2 % MOD) := by
  by_cases hnil : data = []
  · subst hnil
    rfl
  · exact reduced_eq _ hnil

/-- The halves of a checksum as the code takes them, reduced. -/
theorem toNat_half :
    ((adler &&& 0xffff).toUInt64 % UInt64.ofNat MOD).toNat = (halves adler.toNat).1 % MOD ∧
      ((adler >>> 16).toUInt64 % UInt64.ofNat MOD).toNat = (halves adler.toNat).2 % MOD := by
  obtain ⟨h1, h2⟩ := halves_lt adler
  obtain ⟨hlow, hhigh⟩ := Prod.ext_iff.mp (words_halves adler)
  simp only at hlow hhigh
  have hM : (UInt64.ofNat MOD).toNat = MOD := rfl
  rw [hlow, hhigh, UInt64.toNat_mod, UInt64.toNat_mod, hM, UInt32.toNat_toUInt64,
    UInt32.toNat_toUInt64, words, toNat_ofNat (by omega), toNat_ofNat (by omega)]
  exact ⟨rfl, rfl⟩

/-- Nothing wraps around when two checksums are combined. -/
theorem toNat_adler32Combine (adler1 adler2 : UInt32) (len2 : UInt64) :
    (adler32Combine adler1 adler2 len2).toNat =
      ((halves adler1.toNat).2 % MOD + (halves adler2.toNat).2 % MOD +
        len2.toNat % MOD * ((halves adler1.toNat).1 % MOD) % MOD + MOD - len2.toNat % MOD) % MOD *
          2 ^ 16 +
        ((halves adler1.toNat).1 % MOD + (halves adler2.toNat).1 % MOD + (MOD - 1)) % MOD := by
  obtain ⟨ha1, hb1⟩ := toNat_half adler1
  obtain ⟨ha2, hb2⟩ := toNat_half adler2
  have hlt : ∀ n, n % MOD < 65521 := fun n => Nat.mod_lt n (by decide)
  have hrem : (len2 % UInt64.ofNat MOD).toNat = len2.toNat % MOD := UInt64.toNat_mod _ _
  rw [adler32Combine]
  generalize (adler1 &&& 0xffff).toUInt64 % UInt64.ofNat MOD = a1 at ha1 ⊢
  generalize (adler1 >>> 16).toUInt64 % UInt64.ofNat MOD = b1 at hb1 ⊢
  generalize (adler2 &&& 0xffff).toUInt64 % UInt64.ofNat MOD = a2 at ha2 ⊢
  generalize (adler2 >>> 16).toUInt64 % UInt64.ofNat MOD = b2 at hb2 ⊢
  generalize len2 % UInt64.ofNat MOD = rem at hrem ⊢
  have hM : (UInt64.ofNat MOD).toNat = 65521 := rfl
  have hmul : rem.toNat * a1.toNat ≤ 65521 * 65521 :=
    Nat.mul_le_mul (by rw [hrem]; exact Nat.le_of_lt (hlt _))
      (by rw [ha1]; exact Nat.le_of_lt (hlt _))
  rw [← ha1, ← ha2, ← hb1, ← hb2, ← hrem]
  have hla1 := ha1 ▸ hlt (halves adler1.toNat).1
  have hla2 := ha2 ▸ hlt (halves adler2.toNat).1
  have hlb1 := hb1 ▸ hlt (halves adler1.toNat).2
  have hlb2 := hb2 ▸ hlt (halves adler2.toNat).2
  have hlrem := hrem ▸ hlt len2.toNat
  have ha : ((a1 + a2 + (UInt64.ofNat MOD - 1)) % UInt64.ofNat MOD).toNat =
      (a1.toNat + a2.toNat + (MOD - 1)) % MOD := by
    have hone : (UInt64.ofNat MOD - 1).toNat = 65520 := rfl
    rw [UInt64.toNat_mod, UInt64.toNat_add, UInt64.toNat_add, hone, hM]
    unfold MOD
    omega
  have hb : ((b1 + b2 + rem * a1 % UInt64.ofNat MOD + UInt64.ofNat MOD - rem) %
      UInt64.ofNat MOD).toNat =
        (b1.toNat + b2.toNat + rem.toNat * a1.toNat % MOD + MOD - rem.toNat) % MOD := by
    rw [UInt64.toNat_mod, UInt64.toNat_sub, UInt64.toNat_add, UInt64.toNat_add, UInt64.toNat_add,
      UInt64.toNat_mod, UInt64.toNat_mul, hM]
    unfold MOD
    generalize rem.toNat * a1.toNat = product at hmul ⊢
    omega
  have hto : ∀ (x : UInt64) (n : ℕ), x.toNat = n % MOD → toU32OrZero x = UInt32.ofNat (n % MOD) := by
    intro x n h
    have hn := hlt n
    rw [toU32OrZero, if_pos (by omega), ← h]
    apply UInt32.toNat.inj
    rw [UInt64.toNat_toUInt32, UInt32.toNat_ofNat']
  rw [hto _ _ ha, hto _ _ hb]
  exact toNat_joined (s := (_ % MOD, _ % MOD)) (Nat.lt_trans (hlt _) (by decide))
    (Nat.lt_trans (hlt _) (by decide))

/-- **The checksum of two strings** from theirs. -/
theorem adler32Combine_adler32 (x : List UInt8) {y : List UInt8} (h : y.length < 2 ^ 64) :
    adler32Combine (adler32 x) (adler32 y) (UInt64.ofNat y.length) = adler32 (x ++ y) := by
  apply UInt32.toNat.inj
  have href : (adler32 (x ++ y)).toNat =
      (reduced (1, 0) (x ++ y)).2 * 2 ^ 16 + (reduced (1, 0) (x ++ y)).1 :=
    toNat_adler32Update ADLER32_INIT (x ++ y)
  rw [href, toNat_adler32Combine, halves_adler32, halves_adler32, reduced_adler32, reduced_adler32,
    reduced_adler32, UInt64.toNat_ofNat_of_lt' h, sums_append, sums_shift (sums (1, 0) x) y,
    sums_shift (1, 0) y]
  simp only [Nat.mod_mod, MOD]
  generalize sums (1, 0) x = s
  generalize sums (0, 0) y = t
  have hmul : y.length % 65521 * (s.1 % 65521) % 65521 = y.length * s.1 % 65521 :=
    (Nat.mul_mod _ _ _).symm
  rw [hmul]
  generalize y.length * s.1 = product
  have hfst : (s.1 % 65521 + (1 + t.1) % 65521 + (65521 - 1)) % 65521 = (s.1 + t.1) % 65521 := by
    omega
  have hsnd : (s.2 % 65521 + (0 + y.length * 1 + t.2) % 65521 + product % 65521 + 65521 -
      y.length % 65521) % 65521 = (s.2 + product + t.2) % 65521 := by
    omega
  rw [hfst, hsnd]

/-- **Adler-32 (proved).** -/
theorem adler32_correct :
    (∀ (adler : UInt32) (data : List UInt8),
      (adler32Update adler data).toNat = reference adler.toNat data) ∧
    (∀ (adler : UInt32) (block : List UInt8), block.length ≤ NMAX → ∀ n,
      ((blockSums (adler &&& 0xffff, adler >>> 16) (block.take n)).1.toNat,
        (blockSums (adler &&& 0xffff, adler >>> 16) (block.take n)).2.toNat) =
          sums (halves adler.toNat) (block.take n)) ∧
    ∀ x y : List UInt8, y.length < 2 ^ 64 →
      adler32Combine (adler32 x) (adler32 y) (UInt64.ofNat y.length) = adler32 (x ++ y) := by
  refine ⟨toNat_adler32Update, fun adler block hlen n => ?_, fun x y h => adler32Combine_adler32 x h⟩
  obtain ⟨h1, h2⟩ := halves_lt adler
  obtain ⟨hfst, hsnd⟩ := sums_lt h1 h2 (Nat.le_trans (List.length_take_le' n block) hlen)
  rw [words_halves, blockSums_words, words, toNat_ofNat hfst, toNat_ofNat hsnd]

/-- Sums that are larger than the modulus. -/
theorem adler32_replicate :
    adler32Combine (adler32 (List.replicate 300 255)) (adler32 (List.replicate 10 255)) 10 =
      adler32 (List.replicate 310 255) := by
  rw [show 310 = 300 + 10 from rfl, ← List.replicate_append_replicate]
  exact adler32_correct.2.2 _ _ (by decide)

end Qld.Debug.Adler32
