import Mathlib.Algebra.Group.Nat.Defs
import Mathlib.Data.List.Basic

/-!
# Dense bitsets

The model of `passes/bitset.rs`: words of 64 bits and a length.  A query past the end reads as
clear.  `AtomicBitSet` has the same fields; its `set` is a test and then an atomic `fetch_or`, which
are the two atomic steps a thread takes.

* `BitSet.insert`, `BitSet.get` — the plain set;
* `BitSet.test`, `BitSet.fetchOr` — the two halves of `AtomicBitSet::set`;
* `get_fetchOr`, `fetchOr_won` — the bit is set then, by the call that found it clear;
* `BitSet.ext_get` — sets without bits past their end are told apart by `get`.
-/

namespace Qld.Passes

def WORD_BITS : ℕ := 64

/-- A fixed-size bitset. -/
structure BitSet where
  words : List (BitVec 64)
  len : ℕ
  deriving DecidableEq, Repr

namespace BitSet

/-- Creates a bitset of `len` bits, all clear. -/
def new (len : ℕ) : BitSet := ⟨List.replicate ((len + WORD_BITS - 1) / WORD_BITS) 0, len⟩

/-- Whether bit `index` is set.  Out-of-range bits read as clear. -/
def get (s : BitSet) (index : ℕ) : Bool :=
  index < s.len && s.words[index / WORD_BITS]?.any fun word => word.getLsbD (index % WORD_BITS)

/-- Sets bit `index`.  Out-of-range indices are ignored. -/
def insert (s : BitSet) (index : ℕ) : BitSet :=
  if index ≥ s.len then s
  else { s with
    words := s.words.modify (index / WORD_BITS) (· ||| BitVec.ofNat 64 (2 ^ (index % WORD_BITS))) }

/-- The first half of `AtomicBitSet::set`: whether it goes on to the `fetch_or`. -/
def test (s : BitSet) (index : ℕ) : Bool :=
  index < s.len && match s.words[index / WORD_BITS]? with
    | some word => !word.getLsbD (index % WORD_BITS)
    | none => false

/-- The second half: sets the bit, and says whether it was clear. -/
def fetchOr (s : BitSet) (index : ℕ) : BitSet × Bool :=
  ({ s with
      words := s.words.modify (index / WORD_BITS)
        (· ||| BitVec.ofNat 64 (2 ^ (index % WORD_BITS))) },
    match s.words[index / WORD_BITS]? with
    | some word => !word.getLsbD (index % WORD_BITS)
    | none => false)

/-- The words cover the bits, and no bit past the end is set. -/
structure Ok (s : BitSet) : Prop where
  length : s.words.length = (s.len + WORD_BITS - 1) / WORD_BITS
  clean : ∀ k word, s.words[k]? = some word → ∀ b < WORD_BITS, word.getLsbD b = true →
    WORD_BITS * k + b < s.len

theorem ok_new (len : ℕ) : (new len).Ok where
  length := List.length_replicate
  clean := by
    intro k word hword b _ hbit
    rw [new, List.getElem?_replicate] at hword
    split at hword
    · rw [← Option.some.inj hword, BitVec.ofNat_eq_ofNat, BitVec.getLsbD_zero] at hbit
      exact nomatch hbit
    · exact nomatch hword

variable {s : BitSet}

theorem get_new (len index : ℕ) : (new len).get index = false := by
  rw [get, new]
  dsimp only
  rw [List.getElem?_replicate]
  split
  · rw [Option.any_some, BitVec.ofNat_eq_ofNat, BitVec.getLsbD_zero, Bool.and_false]
  · rw [Option.any_none, Bool.and_false]

variable {index : ℕ}

theorem Ok.exists_word (h : s.Ok) (hindex : index < s.len) :
    ∃ word, s.words[index / WORD_BITS]? = some word := by
  have hlt : index / WORD_BITS < s.words.length := by
    rw [h.length]
    unfold WORD_BITS
    omega
  exact ⟨_, List.getElem?_eq_getElem hlt⟩

theorem lt_of_get (h : s.get index = true) : index < s.len :=
  of_decide_eq_true (Bool.and_eq_true_iff.mp h).1

/-- The test goes on for a bit that is in range and clear. -/
theorem Ok.test_eq (h : s.Ok) (index : ℕ) :
    s.test index = (decide (index < s.len) && !s.get index) := by
  by_cases hindex : index < s.len
  · obtain ⟨word, hword⟩ := h.exists_word hindex
    rw [test, get, hword, Option.any_some, decide_eq_true hindex, Bool.true_and, Bool.true_and,
      Bool.true_and]
  · rw [test, decide_eq_false hindex, Bool.false_and, Bool.false_and]

theorem Ok.fetchOr_won (h : s.Ok) (hindex : index < s.len) :
    (s.fetchOr index).2 = !s.get index := by
  obtain ⟨word, hword⟩ := h.exists_word hindex
  rw [fetchOr, get, hword, Option.any_some, decide_eq_true hindex, Bool.true_and]

theorem getLsbD_or_bit (word : BitVec 64) {b : ℕ} (k : ℕ) (hb : b < WORD_BITS) :
    (word ||| BitVec.ofNat 64 (2 ^ k)).getLsbD b = (word.getLsbD b || decide (k = b)) := by
  unfold WORD_BITS at hb
  rw [BitVec.getLsbD_or, BitVec.getLsbD_ofNat, decide_eq_true hb, Bool.true_and, Nat.testBit_two_pow]

theorem Ok.get_fetchOr (h : s.Ok) (hindex : index < s.len) (j : ℕ) :
    (s.fetchOr index).1.get j = (s.get j || decide (index = j)) := by
  by_cases hj : j < s.len
  · obtain ⟨word, hword⟩ := h.exists_word hj
    have hjlt := Nat.mod_lt j (show 0 < WORD_BITS by decide)
    rw [get, get, fetchOr]
    dsimp only
    rw [decide_eq_true hj, Bool.true_and, Bool.true_and]
    by_cases hsame : index / WORD_BITS = j / WORD_BITS
    · have hiff : (index % WORD_BITS = j % WORD_BITS) ↔ index = j := by
        have hi := Nat.div_add_mod index WORD_BITS
        have hj' := Nat.div_add_mod j WORD_BITS
        rw [hsame] at hi
        omega
      rw [hsame, List.getElem?_modify_eq, hword, Option.map_eq_map, Option.map_some, Option.any_some,
        Option.any_some, getLsbD_or_bit word _ hjlt, decide_eq_decide.mpr hiff]
    · have hne : index ≠ j := fun heq => hsame (by rw [heq])
      rw [List.getElem?_modify_ne _ _ hsame, decide_eq_false hne, Bool.or_false]
  · have hne : index ≠ j := by omega
    rw [get, get, fetchOr, decide_eq_false hne, decide_eq_false hj, Bool.false_and, Bool.false_and]
    rfl

theorem Ok.fetchOr (h : s.Ok) (hindex : index < s.len) : (s.fetchOr index).1.Ok where
  length := by
    rw [BitSet.fetchOr, List.length_modify]
    exact h.length
  clean := by
    intro k word hword b hb hbit
    rw [BitSet.fetchOr] at hword ⊢
    dsimp only at hword ⊢
    by_cases hsame : index / WORD_BITS = k
    · rw [hsame, List.getElem?_modify_eq, Option.map_eq_map] at hword
      obtain ⟨old, hold, rfl⟩ := Option.map_eq_some_iff.mp hword
      rw [getLsbD_or_bit old _ hb, Bool.or_eq_true, decide_eq_true_eq] at hbit
      rcases hbit with hbit | hbit
      · exact h.clean k old hold b hb hbit
      · rw [← hsame, ← hbit, Nat.div_add_mod]
        exact hindex
    · rw [List.getElem?_modify_ne _ _ hsame] at hword
      exact h.clean k word hword b hb hbit

/-- **Sets of one size with the same bits are equal.** -/
theorem ext_get {t : BitSet} (hs : s.Ok) (ht : t.Ok) (hlen : s.len = t.len)
    (h : ∀ j, s.get j = t.get j) : s = t := by
  obtain ⟨words, len⟩ := s
  obtain ⟨words', len'⟩ := t
  dsimp only at hlen
  subst hlen
  have hlength : words.length = words'.length := hs.length.trans ht.length.symm
  rw [BitSet.mk.injEq]
  refine ⟨List.ext_getElem hlength fun k hk hk' => ?_, rfl⟩
  apply BitVec.eq_of_getLsbD_eq
  intro b hb
  have hdiv : (WORD_BITS * k + b) / WORD_BITS = k := by
    unfold WORD_BITS
    omega
  have hmod : (WORD_BITS * k + b) % WORD_BITS = b := by
    unfold WORD_BITS
    omega
  have hget := h (WORD_BITS * k + b)
  rw [get, get, hdiv, hmod] at hget
  dsimp only at hget
  rw [List.getElem?_eq_getElem hk, List.getElem?_eq_getElem hk', Option.any_some, Option.any_some]
    at hget
  by_cases hin : WORD_BITS * k + b < len
  · rwa [decide_eq_true hin, Bool.true_and, Bool.true_and] at hget
  · have hclear : ∀ bits : List (BitVec 64), (BitSet.mk bits len).Ok → ∀ hkb : k < bits.length,
        bits[k].getLsbD b = false := by
      intro bits hok hkb
      by_contra hset
      exact hin (hok.clean k _ (List.getElem?_eq_getElem hkb) b hb (Bool.not_eq_false _ ▸ hset))
    rw [hclear words hs hk, hclear words' ht hk']

end BitSet

end Qld.Passes
