import Mathlib.Data.Nat.Bitwise
import Mathlib.Data.List.Count

/-!
# Ranks in a bitmap

A set of numbers kept as a bitmap of 64-bit words, with the number of bits before each word,
so that the rank of a number and the number of a rank are found by a few word operations.

* `countOnes`, `trailingZeros`, `clearLowest` — the word operations, on natural numbers;
* `IsBitmap` — the words hold the bits of a predicate;
* `rankOf`, `select`, `nextSet` — the rank of a number, the number of a rank, and the number
  after a given one; `rankOf_eq`, `select_isNth` and `nextSet_isNth` — **proved**.
-/

namespace Qld.Lib

/-- `trailing_zeros` of a word of `n` bits. -/
def trailingZeros (n x : ℕ) : ℕ := (List.range n).findIdx fun i => x.testBit i

/-- `count_ones` of a word of `n` bits. -/
def countOnes (n x : ℕ) : ℕ := (List.range n).countP x.testBit

/-- `bits &= bits - 1`. -/
def clearLowest (x : ℕ) : ℕ := x &&& (x - 1)

variable {n x t : ℕ}

theorem trailingZeros_eq (ht : t < n) (hbit : x.testBit t = true)
    (hlow : ∀ i < t, x.testBit i = false) : trailingZeros n x = t := by
  rw [trailingZeros, List.findIdx_eq (by simpa using ht)]
  simp only [List.getElem_range]
  exact ⟨hbit, fun i hi => by rw [hlow i hi]⟩

/-! ### The `k`-th number of a set -/

section Nth

variable {p : ℕ → Bool}

/-- `g` has `k` numbers of the set before it, and is one itself. -/
def IsNth (p : ℕ → Bool) (k g : ℕ) : Prop := p g = true ∧ (List.range g).countP p = k

theorem countP_range_succ (p : ℕ → Bool) (g : ℕ) :
    (List.range (g + 1)).countP p = (List.range g).countP p + if p g then 1 else 0 := by
  rw [List.range_succ, List.countP_append, List.countP_singleton]

theorem countP_range_mono (p : ℕ → Bool) {a b : ℕ} (h : a ≤ b) :
    (List.range a).countP p ≤ (List.range b).countP p :=
  (List.range_sublist.mpr h).countP_le

/-- Every rank below the number of numbers is taken. -/
theorem exists_isNth {k n : ℕ} (h : k < (List.range n).countP p) : ∃ g < n, IsNth p k g := by
  induction n with
  | zero => simp at h
  | succ n ih =>
    by_cases hn : k < (List.range n).countP p
    · obtain ⟨g, hg, hnth⟩ := ih hn
      exact ⟨g, by omega, hnth⟩
    · rw [countP_range_succ] at h
      have hp : p n = true := by
        by_contra hp
        rw [if_neg hp] at h
        omega
      rw [if_pos hp] at h
      exact ⟨n, by omega, hp, by omega⟩

theorem IsNth.lt {k k' g g' : ℕ} (h : IsNth p k g) (h' : IsNth p k' g') (hk : k < k') :
    g < g' := by
  by_contra hle
  have hmono := countP_range_mono p (Nat.le_of_not_lt hle)
  rw [h.2, h'.2] at hmono
  omega

/-- There is nothing between two numbers of consecutive ranks. -/
theorem IsNth.not_between {k g g' i : ℕ} (h : IsNth p k g) (h' : IsNth p (k + 1) g')
    (hgi : g < i) (hig : i < g') : p i = false := by
  by_contra hp
  rw [Bool.not_eq_false] at hp
  have hg := countP_range_succ p g
  have hi := countP_range_succ p i
  rw [h.1, if_pos rfl, h.2] at hg
  rw [hp, if_pos rfl] at hi
  have h1 := countP_range_mono p (show g + 1 ≤ i by omega)
  have h2 := countP_range_mono p (show i + 1 ≤ g' by omega)
  rw [h'.2] at h2
  omega

theorem IsNth.not_of_lt {t i : ℕ} (h : IsNth p 0 t) (hi : i < t) : p i = false := by
  have h0 := h.2
  rw [List.countP_eq_zero] at h0
  simpa using h0 i (List.mem_range.mpr hi)

end Nth

/-! ### One word -/

/-- A number less one: the bits below the lowest are set, it is cleared, the others stay. -/
theorem testBit_pred_lowest (t : ℕ) : ∀ {x : ℕ}, x.testBit t = true →
    (∀ i < t, x.testBit i = false) → ∀ i : ℕ,
      (x - 1).testBit i = if i < t then true else if i = t then false else x.testBit i := by
  induction t with
  | zero =>
    intro x hbit _ i
    -- An odd number: only its last bit changes.
    have hodd : x % 2 = 1 := by simpa [Nat.testBit_zero] using hbit
    cases i with
    | zero => simp [Nat.testBit_zero, show (x - 1) % 2 = 0 by omega]
    | succ i =>
      rw [Nat.testBit_succ, Nat.testBit_succ, show (x - 1) / 2 = x / 2 by omega]
      simp
  | succ t ih =>
    intro x hbit hlow i
    -- An even number: its last bit becomes set, and the carry goes on.
    have heven : x % 2 = 0 := by
      have := hlow 0 (Nat.succ_pos t)
      simp only [Nat.testBit_zero, decide_eq_false_iff_not] at this
      omega
    rw [Nat.testBit_succ] at hbit
    have hpos : x / 2 ≠ 0 := by
      intro h
      rw [h, Nat.zero_testBit] at hbit
      exact Bool.false_ne_true hbit
    cases i with
    | zero => simp [Nat.testBit_zero, show (x - 1) % 2 = 1 by omega]
    | succ i =>
      rw [Nat.testBit_succ, Nat.testBit_succ, show (x - 1) / 2 = x / 2 - 1 by omega,
        ih hbit (fun i hi => by rw [← Nat.testBit_succ]; exact hlow (i + 1) (by omega)) i]
      simp only [Nat.add_lt_add_iff_right, Nat.add_right_cancel_iff]

theorem testBit_clearLowest (hbit : x.testBit t = true) (hlow : ∀ i < t, x.testBit i = false)
    (i : ℕ) :
    (clearLowest x).testBit i = (x.testBit i && decide (i ≠ t)) := by
  rw [clearLowest, Nat.testBit_and, testBit_pred_lowest t hbit hlow]
  rcases Nat.lt_trichotomy i t with h | h | h
  · simp [hlow i h]
  · simp [h]
  · simp [show ¬ i < t by omega, Nat.ne_of_gt h]

/-- Clearing the lowest bit lowers every later rank by one. -/
theorem countP_clearLowest (h : IsNth x.testBit 0 t) (hn : t < n) :
    (List.range n).countP x.testBit = (List.range n).countP (clearLowest x).testBit + 1 := by
  have hclear := testBit_clearLowest h.1 fun i hi => h.not_of_lt hi
  have hbelow : (List.range (t + 1)).countP (clearLowest x).testBit = 0 := by
    rw [List.countP_eq_zero]
    intro i hi
    rw [List.mem_range] at hi
    rw [hclear]
    by_cases hit : i = t
    · simp [hit]
    · simp [h.not_of_lt (show i < t by omega)]
  induction n, Nat.succ_le_of_lt hn using Nat.le_induction with
  | base =>
    rw [Nat.succ_eq_add_one, hbelow, countP_range_succ, h.2, h.1]
    rfl
  | succ n hn' ih =>
    rw [countP_range_succ, countP_range_succ, ih (by omega), hclear n]
    simp only [show n ≠ t by omega, ne_eq, not_false_eq_true, decide_true, Bool.and_true]
    omega

/-- **The bit of a given rank in a word.**  Clear the lowest bit that many times, and
take the lowest bit that is left. -/
theorem isNth_trailingZeros (n k : ℕ) : ∀ x : ℕ, k < countOnes n x →
    IsNth x.testBit k (trailingZeros n (clearLowest^[k] x)) ∧
      trailingZeros n (clearLowest^[k] x) < n := by
  induction k with
  | zero =>
    intro x hx
    obtain ⟨t, ht, hnth⟩ := exists_isNth hx
    rw [Function.iterate_zero_apply, trailingZeros_eq ht hnth.1 fun i hi => hnth.not_of_lt hi]
    exact ⟨hnth, ht⟩
  | succ k ih =>
    intro x hx
    obtain ⟨t, ht, hnth⟩ : ∃ t < n, IsNth x.testBit 0 t :=
      exists_isNth (Nat.lt_of_le_of_lt (Nat.zero_le _) hx)
    have hcount := countP_clearLowest hnth ht
    obtain ⟨hbit, hlt⟩ := ih (clearLowest x) (by unfold countOnes at hx ⊢; omega)
    rw [Function.iterate_succ_apply]
    refine ⟨?_, hlt⟩
    have hclear := hbit.1
    rw [testBit_clearLowest hnth.1 fun i hi => hnth.not_of_lt hi, Bool.and_eq_true,
      decide_eq_true_eq] at hclear
    have hgt : t < trailingZeros n (clearLowest^[k] (clearLowest x)) := by
      by_contra hle
      have := hnth.not_of_lt (lt_of_le_of_ne (Nat.le_of_not_lt hle) hclear.2)
      rw [hclear.1] at this
      exact Bool.false_ne_true this.symm
    exact ⟨hclear.1, by rw [countP_clearLowest hnth hgt, hbit.2]⟩

/-! ### Bitmaps -/

/-- The words hold the bits of `p`, 64 to a word. -/
structure IsBitmap (p : ℕ → Bool) (words : List ℕ) : Prop where
  bit : ∀ w < words.length, ∀ b,
    (words.getD w 0).testBit b = (decide (b < 64) && p (64 * w + b))

/-- The number of bits set before each word, and in all. -/
def onesBefore : List ℕ → ℕ → List ℕ × ℕ
  | [], count => ([], count)
  | word :: words, count =>
    let rest := onesBefore words (count + countOnes 64 word)
    (count :: rest.1, rest.2)

@[simp] theorem onesBefore_length (words : List ℕ) : ∀ count,
    (onesBefore words count).1.length = words.length := by
  induction words with
  | nil => intro count; rfl
  | cons word words ih => intro count; simp [onesBefore, ih]

/-- The rank of `g`: the bits before its word, and those below it in the word. -/
def rankOf (words before : List ℕ) (g : ℕ) : ℕ :=
  before.getD (g / 64) 0 + countOnes 64 (words.getD (g / 64) 0 &&& ((1 <<< (g % 64)) - 1))

/-- `partition_point` of a slice that is partitioned by the predicate. -/
def partitionPoint {α : Type*} (p : α → Bool) (l : List α) : ℕ := (l.takeWhile p).length

/-- The number of a given rank: the word that holds it, then the bit within the word. -/
def select (words before : List ℕ) (rank : ℕ) : ℕ :=
  let word := partitionPoint (fun b => decide (b ≤ rank)) before - 1
  let bits := clearLowest^[rank - before.getD word 0] (words.getD word 0)
  word * 64 + trailingZeros 64 bits

/-- The first word from `word` on that is not zero, given its bits. -/
def skipZeros (words : List ℕ) : ℕ → ℕ → ℕ → ℕ × ℕ
  | 0, word, bits => (word, bits)
  | fuel + 1, word, bits =>
    if bits = 0 then skipZeros words fuel (word + 1) (words.getD (word + 1) 0) else (word, bits)

/-- The next number after `g`. -/
def nextSet (words : List ℕ) (g : ℕ) : ℕ :=
  let mask := (((2 ^ 64 - 1) <<< (g % 64)) % 2 ^ 64) <<< 1 % 2 ^ 64
  let next := skipZeros words words.length (g / 64) (words.getD (g / 64) 0 &&& mask)
  next.1 * 64 + trailingZeros 64 next.2

namespace IsBitmap

variable {p : ℕ → Bool} {words : List ℕ}

/-- Counting within a word is counting from its first number. -/
theorem countP_word (h : IsBitmap p words) {w : ℕ} (hw : w < words.length) : ∀ {n : ℕ}, n ≤ 64 →
    (List.range (64 * w + n)).countP p =
      (List.range (64 * w)).countP p + (List.range n).countP (words.getD w 0).testBit := by
  intro n
  induction n with
  | zero => intro _; rfl
  | succ n ih =>
    intro hn
    rw [← Nat.add_assoc, countP_range_succ, ih (by omega), countP_range_succ, h.bit w hw n,
      decide_eq_true (show n < 64 by omega), Bool.true_and, Nat.add_assoc]

theorem countP_next (h : IsBitmap p words) {w : ℕ} (hw : w < words.length) :
    (List.range (64 * (w + 1))).countP p =
      (List.range (64 * w)).countP p + countOnes 64 (words.getD w 0) :=
  h.countP_word hw le_rfl

end IsBitmap

theorem onesBefore_getD (words : List ℕ) : ∀ (count w : ℕ), w < words.length →
    (onesBefore words count).1.getD w 0 = count + ((words.take w).map (countOnes 64)).sum := by
  induction words with
  | nil => intro count w hw; exact absurd hw (Nat.not_lt_zero w)
  | cons word words ih =>
    intro count w hw
    cases w with
    | zero => simp [onesBefore]
    | succ w =>
      rw [onesBefore, List.getD_cons_succ, ih _ w (by simpa using hw), List.take_succ_cons,
        List.map_cons, List.sum_cons]
      omega

theorem onesBefore_count (words : List ℕ) : ∀ count : ℕ,
    (onesBefore words count).2 = count + (words.map (countOnes 64)).sum := by
  induction words with
  | nil => intro count; rfl
  | cons word words ih =>
    intro count
    rw [onesBefore, ih, List.map_cons, List.sum_cons]
    omega

namespace IsBitmap

variable {p : ℕ → Bool} {words : List ℕ}

theorem sum_take (h : IsBitmap p words) : ∀ {w : ℕ}, w ≤ words.length →
    ((words.take w).map (countOnes 64)).sum = (List.range (64 * w)).countP p := by
  intro w
  induction w with
  | zero => intro _; rfl
  | succ w ih =>
    intro hw
    rw [h.countP_next (by omega), ← ih (by omega), List.take_add_one,
      List.getElem?_eq_getElem (show w < words.length by omega), List.map_append, List.sum_append,
      List.getD_eq_getElem _ 0 (show w < words.length by omega)]
    simp

theorem before_getD (h : IsBitmap p words) {w : ℕ} (hw : w < words.length) :
    (onesBefore words 0).1.getD w 0 = (List.range (64 * w)).countP p := by
  rw [onesBefore_getD words 0 w hw, h.sum_take (Nat.le_of_lt hw), Nat.zero_add]

theorem count_eq (h : IsBitmap p words) :
    (onesBefore words 0).2 = (List.range (64 * words.length)).countP p := by
  have := h.sum_take le_rfl
  rw [List.take_length] at this
  rw [onesBefore_count, this, Nat.zero_add]

/-- **The rank of a number.** -/
theorem rankOf_eq (h : IsBitmap p words) {g : ℕ} (hg : g < 64 * words.length) :
    rankOf words (onesBefore words 0).1 g = (List.range g).countP p := by
  have hw : g / 64 < words.length := by omega
  have hmask : ∀ n ≤ 64,
      (List.range n).countP (words.getD (g / 64) 0 &&& ((1 <<< (g % 64)) - 1)).testBit =
        (List.range (min n (g % 64))).countP (words.getD (g / 64) 0).testBit := by
    intro n
    induction n with
    | zero => intro _; rw [Nat.zero_min]; rfl
    | succ n ih =>
      intro hn
      rw [countP_range_succ, ih (by omega), Nat.testBit_and, Nat.one_shiftLeft,
        Nat.testBit_two_pow_sub_one]
      by_cases hlt : n < g % 64
      · rw [min_eq_left (by omega), min_eq_left (by omega), countP_range_succ, decide_eq_true hlt,
          Bool.and_true]
      · rw [min_eq_right (by omega), min_eq_right (by omega), decide_eq_false hlt, Bool.and_false]
        rfl
  rw [rankOf, h.before_getD hw, countOnes, hmask 64 le_rfl,
    min_eq_right (by omega), ← h.countP_word hw (by omega)]
  congr 2
  omega

end IsBitmap

theorem partitionPoint_eq {α : Type*} {p : α → Bool} {l : List α}
    (hlt : ∀ i < n, ∃ x, l[i]? = some x ∧ p x = true) (hend : ∀ x, l[n]? = some x → p x = false) :
    partitionPoint p l = n := by
  induction n generalizing l with
  | zero =>
    cases l with
    | nil => rfl
    | cons x l => rw [partitionPoint, List.takeWhile_cons, hend x rfl]; rfl
  | succ n ih =>
    cases l with
    | nil => obtain ⟨x, hx, -⟩ := hlt 0 (Nat.succ_pos n); simp at hx
    | cons x l =>
      obtain ⟨y, hy, hp⟩ := hlt 0 (Nat.succ_pos n)
      rw [List.getElem?_cons_zero, Option.some.injEq] at hy
      have htail := @ih l (fun i hi => hlt (i + 1) (by omega)) fun z hz => hend z hz
      rw [partitionPoint] at htail
      rw [partitionPoint, List.takeWhile_cons, hy, if_pos hp, List.length_cons, htail]

namespace IsBitmap

variable {p : ℕ → Bool} {words : List ℕ}

/-- **The number of a given rank.** -/
theorem select_isNth (h : IsBitmap p words) {k : ℕ} (hk : k < (onesBefore words 0).2) :
    IsNth p k (select words (onesBefore words 0).1 k) := by
  rw [h.count_eq] at hk
  obtain ⟨g, hg, hnth⟩ := exists_isNth hk
  have hw : g / 64 < words.length := by omega
  have hge : (List.range (64 * (g / 64))).countP p ≤ k :=
    hnth.2 ▸ countP_range_mono p (by omega)
  have hlt : k < (List.range (64 * (g / 64 + 1))).countP p := by
    have hsucc := countP_range_succ p g
    rw [hnth.1, if_pos rfl, hnth.2] at hsucc
    have hmono := countP_range_mono p (show g + 1 ≤ 64 * (g / 64 + 1) by omega)
    omega
  -- The words up to that of `g` start at a rank up to `k`, the next one does not.
  have hget : ∀ i < words.length, (onesBefore words 0).1[i]? =
      some ((List.range (64 * i)).countP p) := by
    intro i hi
    have hlen : i < (onesBefore words 0).1.length := by rwa [onesBefore_length]
    rw [← h.before_getD hi, List.getD_eq_getElem _ 0 hlen, List.getElem?_eq_getElem hlen]
  have hpoint : partitionPoint (fun b => decide (b ≤ k)) (onesBefore words 0).1 =
      g / 64 + 1 := by
    apply partitionPoint_eq
    · intro i hi
      refine ⟨_, hget i (by omega), decide_eq_true ?_⟩
      exact (countP_range_mono p (by omega)).trans hge
    · intro x hx
      have hlen := (List.getElem?_eq_some_iff.mp hx).1
      rw [onesBefore_length] at hlen
      rw [hget _ hlen, Option.some.injEq] at hx
      exact decide_eq_false (by omega)
  rw [h.countP_next hw] at hlt
  obtain ⟨hbit, hbelow⟩ := isNth_trailingZeros 64
    (k - (List.range (64 * (g / 64))).countP p) (words.getD (g / 64) 0) (by omega)
  simp only [select]
  rw [hpoint, Nat.add_sub_cancel, h.before_getD hw, Nat.mul_comm (g / 64) 64]
  refine ⟨?_, ?_⟩
  · have := h.bit (g / 64) hw (trailingZeros 64 _) ▸ hbit.1
    rw [Bool.and_eq_true] at this
    exact this.2
  · rw [h.countP_word hw (Nat.le_of_lt hbelow), hbit.2]
    omega

/-- The bits of a word for the numbers after `g`. -/
def After (p : ℕ → Bool) (g word bits : ℕ) : Prop :=
  ∀ b, bits.testBit b = (decide (b < 64) && (p (64 * word + b) && decide (g < 64 * word + b)))

/-- In its word, the next number is the lowest bit. -/
theorem after_lowest {k g g' bits : ℕ} (hg : IsNth p k g) (hg' : IsNth p (k + 1) g')
    (hbits : After p g (g' / 64) bits) :
    bits ≠ 0 ∧ trailingZeros 64 bits = g' % 64 := by
  have hgg := hg.lt hg' (Nat.lt_succ_self k)
  have hbit : bits.testBit (g' % 64) = true := by
    rw [hbits, show 64 * (g' / 64) + g' % 64 = g' by omega, hg'.1]
    simp [hgg, show g' % 64 < 64 by omega]
  refine ⟨?_, trailingZeros_eq (by omega) hbit fun i hi => ?_⟩
  · intro h0
    rw [h0, Nat.zero_testBit] at hbit
    exact Bool.false_ne_true hbit
  · rw [hbits]
    by_cases hgi : g < 64 * (g' / 64) + i
    · simp [hg.not_between hg' hgi (by omega)]
    · simp [hgi]

/-- Before the word of the next number there is nothing. -/
theorem after_eq_zero {k g g' word bits : ℕ} (hg : IsNth p k g) (hg' : IsNth p (k + 1) g')
    (hword : word < g' / 64) (hbits : After p g word bits) : bits = 0 := by
  apply Nat.eq_of_testBit_eq
  intro b
  rw [hbits, Nat.zero_testBit]
  by_cases hb : b < 64
  · by_cases hgi : g < 64 * word + b
    · simp [hg.not_between hg' hgi (by omega)]
    · simp [hgi]
  · simp [hb]

/-- Skipping words that are zero leads to the word of the next number. -/
theorem skipZeros_eq (h : IsBitmap p words) {k g g' : ℕ} (hg : IsNth p k g)
    (hg' : IsNth p (k + 1) g') (hlt : g' < 64 * words.length) (fuel : ℕ) :
    ∀ word bits : ℕ, g / 64 ≤ word → word ≤ g' / 64 → g' / 64 - word ≤ fuel →
      After p g word bits →
      (skipZeros words fuel word bits).1 = g' / 64 ∧
        trailingZeros 64 (skipZeros words fuel word bits).2 = g' % 64 := by
  induction fuel with
  | zero =>
    intro word bits _ hle hfuel hbits
    obtain rfl : word = g' / 64 := by omega
    exact ⟨rfl, (after_lowest hg hg' hbits).2⟩
  | succ fuel ih =>
    intro word bits hge hle hfuel hbits
    rw [skipZeros]
    by_cases hword : word = g' / 64
    · subst hword
      obtain ⟨hne, hzeros⟩ := after_lowest hg hg' hbits
      rw [if_neg hne]
      exact ⟨rfl, hzeros⟩
    · rw [if_pos (after_eq_zero hg hg' (by omega) hbits)]
      refine ih (word + 1) _ (by omega) (by omega) (by omega) fun b => ?_
      rw [h.bit (word + 1) (by omega), decide_eq_true (show g < 64 * (word + 1) + b by omega),
        Bool.and_true]

/-- **The number after a given one.** -/
theorem nextSet_isNth (h : IsBitmap p words) {k g : ℕ} (hg : IsNth p k g)
    (hk : k + 1 < (onesBefore words 0).2) : IsNth p (k + 1) (nextSet words g) := by
  rw [h.count_eq] at hk
  obtain ⟨g', hlt, hg'⟩ := exists_isNth hk
  have hgg := hg.lt hg' (Nat.lt_succ_self k)
  have hnext := h.skipZeros_eq hg hg' hlt words.length (g / 64)
    (words.getD (g / 64) 0 &&& (((2 ^ 64 - 1) <<< (g % 64)) % 2 ^ 64) <<< 1 % 2 ^ 64)
    le_rfl (by omega) (by omega) (by
      intro b
      rw [Nat.testBit_and, h.bit (g / 64) (by omega), Nat.testBit_mod_two_pow,
        Nat.testBit_shiftLeft, Nat.testBit_mod_two_pow, Nat.testBit_shiftLeft,
        Nat.testBit_two_pow_sub_one]
      by_cases hb : b < 64
      · by_cases hgb : g < 64 * (g / 64) + b
        · simp [hb, hgb, show b ≥ 1 by omega, show b - 1 < 64 by omega,
            show b - 1 ≥ g % 64 by omega, show b - 1 - g % 64 < 64 by omega]
        · simp [hgb]
          omega
      · simp [hb])
  simp only [nextSet]
  rw [hnext.1, hnext.2, show g' / 64 * 64 + g' % 64 = g' by omega]
  exact hg'

end IsBitmap

end Qld.Lib
