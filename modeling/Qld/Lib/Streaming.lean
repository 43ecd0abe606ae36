import Mathlib.Data.List.Basic

/-!
# Consuming a stream in blocks

Data that arrives in pieces of any length is consumed in blocks of `n`; what does not fill a block
is kept.

* `blocks`, `remainder` — the complete blocks of some data, and what is left;
* `absorb` — the state after the complete blocks, with what is left;
* `feed` — one more piece, after what was left of the pieces before;
* `feed_absorb` — pieces are consumed like their concatenation.
-/

namespace Qld.Lib

variable {β σ : Type}

/-! ### Blocks -/

/-- The complete blocks of `n` elements. -/
def blocks (n : ℕ) (data : List β) : List (List β) :=
  (List.range (data.length / n)).map fun i => (data.drop (i * n)).take n

/-- What the complete blocks leave. -/
def remainder (n : ℕ) (data : List β) : List β := data.drop (data.length / n * n)

section Blocks

variable {n : ℕ} {data : List β}

theorem blocks_of_lt (h : data.length < n) : blocks n data = [] := by
  rw [blocks, Nat.div_eq_of_lt h]
  rfl

theorem remainder_of_lt (h : data.length < n) : remainder n data = data := by
  rw [remainder, Nat.div_eq_of_lt h, Nat.zero_mul, List.drop_zero]

theorem length_div_of_le (hn : 0 < n) (h : n ≤ data.length) :
    data.length / n = (data.drop n).length / n + 1 := by
  rw [List.length_drop, Nat.div_eq_sub_div hn h]

theorem blocks_of_le (hn : 0 < n) (h : n ≤ data.length) :
    blocks n data = data.take n :: blocks n (data.drop n) := by
  rw [blocks, length_div_of_le hn h, List.range_succ_eq_map, List.map_cons, Nat.zero_mul,
    List.drop_zero, List.map_map, blocks]
  refine congrArg _ (List.map_congr_left fun i _ => ?_)
  rw [Function.comp_apply, List.drop_drop, Nat.succ_mul, Nat.add_comm]

theorem remainder_of_le (hn : 0 < n) (h : n ≤ data.length) :
    remainder n data = remainder n (data.drop n) := by
  rw [remainder, length_div_of_le hn h, remainder, List.drop_drop, Nat.succ_mul, Nat.add_comm n]

theorem length_remainder (data : List β) : (remainder n data).length = data.length % n := by
  rw [remainder, List.length_drop, Nat.mod_eq_sub_div_mul]

theorem length_remainder_lt (hn : 0 < n) : (remainder n data).length < n := by
  rw [length_remainder]
  exact Nat.mod_lt _ hn

theorem flatten_blocks_append (hn : 0 < n) (data : List β) :
    (blocks n data).flatten ++ remainder n data = data := by
  induction hlen : data.length using Nat.strongRecOn generalizing data with
  | _ len ih =>
    subst hlen
    by_cases hle : n ≤ data.length
    · rw [blocks_of_le hn hle, remainder_of_le hn hle, List.flatten_cons, List.append_assoc,
        ih (data.drop n).length (by rw [List.length_drop]; omega) _ rfl, List.take_append_drop]
    · have hlt := Nat.lt_of_not_le hle
      rw [blocks_of_lt hlt, remainder_of_lt hlt, List.flatten_nil, List.nil_append]

theorem length_of_mem_blocks {block : List β} (h : block ∈ blocks n data) : block.length = n := by
  obtain ⟨i, hi, rfl⟩ := List.mem_map.mp h
  have hmul : (i + 1) * n ≤ data.length :=
    Nat.le_trans (Nat.mul_le_mul_right n (List.mem_range.mp hi)) (Nat.div_mul_le_self _ _)
  rw [Nat.succ_mul] at hmul
  rw [List.length_take, List.length_drop]
  omega

theorem blocks_eq_nil (hn : 0 < n) : blocks n data = [] ↔ data.length < n := by
  refine ⟨fun h => ?_, blocks_of_lt⟩
  by_contra hle
  rw [blocks_of_le hn (Nat.le_of_not_lt hle)] at h
  exact nomatch h

/-- **The blocks of data that follows other data.** -/
theorem blocks_append (hn : 0 < n) (x y : List β) :
    blocks n (x ++ y) = blocks n x ++ blocks n (remainder n x ++ y) ∧
      remainder n (x ++ y) = remainder n (remainder n x ++ y) := by
  induction hlen : x.length using Nat.strongRecOn generalizing x with
  | _ len ih =>
    subst hlen
    by_cases hle : n ≤ x.length
    · have happ : n ≤ (x ++ y).length := by rw [List.length_append]; omega
      obtain ⟨hblocks, hrest⟩ := ih (x.drop n).length (by rw [List.length_drop]; omega) _ rfl
      rw [blocks_of_le hn hle, blocks_of_le hn happ, remainder_of_le hn hle, remainder_of_le hn happ,
        List.take_append_of_le_length hle, List.drop_append_of_le_length hle, hblocks, hrest]
      exact ⟨rfl, rfl⟩
    · have hlt := Nat.lt_of_not_le hle
      rw [blocks_of_lt hlt, remainder_of_lt hlt, List.nil_append]
      exact ⟨rfl, rfl⟩

end Blocks

/-! ### Streams -/

variable (n : ℕ) (step : σ → List β → σ)

/-- The state after the complete blocks of some data, with what is left. -/
def absorb (s : σ) (data : List β) : σ × List β := ((blocks n data).foldl step s, remainder n data)

/-- One more piece, after `pending` was left of the pieces before. -/
def feed (s : σ) (pending data : List β) : σ × List β :=
  if pending = [] then absorb n step s data
  else
    let take := min (n - pending.length) data.length
    let pending := pending ++ data.take take
    if pending.length < n then (s, pending) else absorb n step (step s pending) (data.drop take)

variable {n} {step}

/-- **What was left comes first.** -/
theorem feed_eq (s : σ) {pending : List β} (h : pending.length < n) (data : List β) :
    feed n step s pending data = absorb n step s (pending ++ data) := by
  have hn : 0 < n := by omega
  rw [feed]
  split
  · next hnil => rw [hnil, List.nil_append]
  · by_cases hle : n - pending.length ≤ data.length
    · -- The piece fills the block that was begun.
      have hlen : (pending ++ data.take (n - pending.length)).length = n := by
        rw [List.length_append, List.length_take]
        omega
      have htake : (pending ++ data).take n = pending ++ data.take (n - pending.length) := by
        rw [List.take_append, List.take_of_length_le (Nat.le_of_lt h)]
      have hdrop : (pending ++ data).drop n = data.drop (n - pending.length) := by
        rw [List.drop_append, List.drop_of_length_le (Nat.le_of_lt h), List.nil_append]
      have happ : n ≤ (pending ++ data).length := by rw [List.length_append]; omega
      simp only [Nat.min_eq_left hle, hlen, Nat.lt_irrefl, if_false]
      rw [absorb, absorb, blocks_of_le hn happ, remainder_of_le hn happ, htake, hdrop,
        List.foldl_cons]
    · have hlt : (pending ++ data).length < n := by rw [List.length_append]; omega
      simp only [Nat.min_eq_right (Nat.le_of_not_le hle), List.take_length, if_pos hlt]
      rw [absorb, blocks_of_lt hlt, remainder_of_lt hlt, List.foldl_nil]

/-- **Pieces are consumed like their concatenation.** -/
theorem feed_absorb (hn : 0 < n) (s : σ) (x y : List β) :
    feed n step (absorb n step s x).1 (absorb n step s x).2 y = absorb n step s (x ++ y) := by
  obtain ⟨hblocks, hrest⟩ := blocks_append hn x y
  have hlt : (absorb n step s x).2.length < n := length_remainder_lt hn
  rw [feed_eq _ hlt, absorb, absorb, absorb, hblocks, hrest, List.foldl_append]

end Qld.Lib
