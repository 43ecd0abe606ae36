import Qld.Lib.Streaming

/-!
# Merkle–Damgård hashing

A message is padded with `0x80`, zeros and its length, and its blocks are compressed one after the
other.

* `padded` — the padded message;
* `mdHash` — the state after its blocks;
* `feed_padding` — the hash of a message of which some blocks are absorbed already;
* `foldl_snoc` — a schedule that is filled in order.
-/

namespace Qld.Lib

/-! ### Padding -/

/-- The zeros that fill the last block of `block` bytes, `lengthSize` of which hold the length of a
message of `n` bytes. -/
def padZeros (block lengthSize n : ℕ) : ℕ := (block - (n + 1 + lengthSize) % block) % block

/-- The message with its padding. -/
def padded (block : ℕ) (length : List UInt8) (data : List UInt8) : List UInt8 :=
  data ++ 0x80 :: List.replicate (padZeros block length.length data.length) 0 ++ length

section Hash

variable {σ : Type} (block : ℕ) (step : σ → List UInt8 → σ)

/-- The state after the blocks of the padded message. -/
def mdHash (s : σ) (length data : List UInt8) : σ :=
  (blocks block (padded block length data)).foldl step s

variable {block}

/-- **Feeding the padding finishes the hash.** -/
theorem feed_padding (h : 0 < block) (s : σ) (length data : List UInt8) {pad : List UInt8}
    (hpad : pad = 0x80 :: List.replicate (padZeros block length.length data.length) 0) :
    (feed block step (feed block step (absorb block step s data).1 (absorb block step s data).2
      pad).1 (feed block step (absorb block step s data).1 (absorb block step s data).2 pad).2
        length).1 = mdHash block step s length data := by
  rw [feed_absorb h, feed_absorb h, hpad, mdHash, padded]
  rfl

end Hash

/-! ### Schedules -/

/-- **A list that is filled in order**, each element from those before it. -/
theorem foldl_snoc {α : Type} (W : ℕ → α) (g : List α → ℕ → α) {n : ℕ}
    (h : ∀ i, n ≤ i → g ((List.range i).map W) i = W i) (k : ℕ) :
    (List.range' n k).foldl (fun w i => w ++ [g w i]) ((List.range n).map W) =
      (List.range (n + k)).map W := by
  induction k with
  | zero => rfl
  | succ k ih =>
    rw [List.range'_concat, List.foldl_append, ih, Nat.one_mul, List.foldl_cons, List.foldl_nil,
      h _ (Nat.le_add_right _ _), ← Nat.add_assoc, List.range_succ, List.map_append]
    rfl

theorem getD_map_range {α : Type} (W : ℕ → α) {i j : ℕ} (h : j < i) (d : α) :
    ((List.range i).map W).getD j d = W j := by
  rw [List.getD_eq_getElem?_getD, List.getElem?_map, List.getElem?_range h]
  rfl

end Qld.Lib
