import Mathlib.Data.List.Induction
import Qld.Output.HashStandard

/-!
# The digests are the standard's

* `Md5.compress_eq`, `Sha1.compress_eq`, `Sha256.compress_eq` — blocks are compressed as
  the standards have it;
* `Md5.digest_eq`, `Sha1.digest_eq`, `Sha256.digest_eq`, `xxh64_eq` — the digest of one
  call is the standard's;
* `hash_pieces` — so is the digest of pieces.
-/

namespace Qld.Output.Hash

open Qld.Lib

/-! ### Blocks -/

variable {block : List UInt8}

theorem words_eq (read : List UInt8 → UInt32) (h : block.length = 64) :
    (blocks 4 block).map read = (List.range 16).map (Standard.word read block) := by
  rw [blocks, h, List.map_map]
  rfl

/-- Functions of a message agree when they agree on blocks. -/
theorem mdHash_congr {σ : Type} {step step' : σ → List UInt8 → σ}
    (h : ∀ s block, block.length = 64 → step s block = step' s block) (s : σ)
    (length data : List UInt8) : mdHash 64 step s length data = mdHash 64 step' s length data :=
  List.foldl_ext _ _ _ fun s block hblock => h s block (length_of_mem_blocks hblock)

theorem md5Round_eq (h : block.length = 64) (s : UInt32 × UInt32 × UInt32 × UInt32) {i : ℕ}
    (hi : i < 64) :
    Md5.round ((blocks 4 block).map le32) s ((K.getD i 0, S.getD i 0), i) =
      Standard.md5Operation (Standard.word le32 block) s i := by
  obtain ⟨a, b, c, d⟩ := s
  have hword : ∀ g, ((blocks 4 block).map le32).getD (g % 16) 0 =
      Standard.word le32 block (g % 16) := fun g => by
    rw [words_eq le32 h, getD_map_range _ (Nat.mod_lt _ (by decide))]
  have hsum : ∀ f w k : UInt32, f + a + k + w = a + f + w + k := fun f w k => by ac_rfl
  rw [Md5.round, Standard.md5Operation, Standard.md5Function, Standard.md5Index]
  rcases (by omega : i / 16 = 0 ∨ i / 16 = 1 ∨ i / 16 = 2 ∨ i / 16 = 3) with hq | hq | hq | hq
  · have hmod : i % 16 = i := by omega
    have hfirst := hword i
    rw [hmod] at hfirst
    simp only [hq, if_pos (by omega : i < 16), hsum, hmod, hfirst]
  · simp only [hq, if_neg (by omega : ¬i < 16), if_pos (by omega : i < 32), hword, hsum]
    rw [UInt32.and_comm d b, UInt32.and_comm (~~~d) c, Nat.mul_comm i, Nat.add_comm 1]
  · simp only [hq, if_neg (by omega : ¬i < 16), if_neg (by omega : ¬i < 32),
      if_pos (by omega : i < 48), hword, hsum]
    rw [Nat.mul_comm i, Nat.add_comm 5]
  · simp only [hq, if_neg (by omega : ¬i < 16), if_neg (by omega : ¬i < 32),
      if_neg (by omega : ¬i < 48), hword, hsum]
    rw [Nat.mul_comm i]

theorem zipIdx_constants : (K.zip S).zipIdx =
    (List.range 64).map fun i => ((K.getD i 0, S.getD i 0), i) := rfl

/-- **MD5 compresses blocks as RFC 1321 has it.** -/
theorem Md5.compress_eq (s : UInt32 × UInt32 × UInt32 × UInt32) (h : block.length = 64) :
    Md5.compress s block = Standard.md5Compress s block := by
  have hfold : (K.zip S).zipIdx.foldl (Md5.round ((blocks 4 block).map le32)) s =
      (List.range 64).foldl (Standard.md5Operation (Standard.word le32 block)) s := by
    rw [zipIdx_constants, List.foldl_map]
    exact List.foldl_ext _ _ _ fun s i hi => md5Round_eq h s (List.mem_range.mp hi)
  rw [Md5.compress, Standard.md5Compress, ← hfold]

theorem eq_of_bits {x y : UInt32} (h : ∀ i, x.toBitVec.getLsbD i = y.toBitVec.getLsbD i) :
    x = y := UInt32.toBitVec_inj.mp (BitVec.eq_of_getLsbD_eq fun i _ => h i)

theorem ch_eq (x y z : UInt32) : z ^^^ x &&& (y ^^^ z) = Standard.ch x y z := by
  refine eq_of_bits fun i => ?_
  simp only [Standard.ch, UInt32.toBitVec_xor, UInt32.toBitVec_and, UInt32.toBitVec_not,
    BitVec.getLsbD_xor, BitVec.getLsbD_and, BitVec.getLsbD_not]
  by_cases hi : i < 32
  · cases x.toBitVec.getLsbD i <;> cases y.toBitVec.getLsbD i <;>
      cases z.toBitVec.getLsbD i <;> simp [hi]
  · simp [BitVec.getLsbD_of_ge _ _ (Nat.le_of_not_lt hi)]

theorem maj_eq (x y z : UInt32) : x &&& y ||| z &&& (x ||| y) = Standard.maj x y z := by
  refine eq_of_bits fun i => ?_
  simp only [Standard.maj, UInt32.toBitVec_xor, UInt32.toBitVec_and, UInt32.toBitVec_or,
    BitVec.getLsbD_xor, BitVec.getLsbD_and, BitVec.getLsbD_or]
  cases x.toBitVec.getLsbD i <;> cases y.toBitVec.getLsbD i <;>
    cases z.toBitVec.getLsbD i <;> rfl

theorem words_of_schedule (h : block.length = 64) (W : ℕ → UInt32)
    (hW : ∀ t < 16, W t = Standard.word be32 block t) :
    (blocks 4 block).map be32 = (List.range 16).map W := by
  rw [words_eq be32 h]
  exact List.map_congr_left fun t ht => (hW t (List.mem_range.mp ht)).symm

theorem Sha1.schedule_eq (h : block.length = 64) : Sha1.schedule block =
    (List.range 80).map (Standard.sha1Schedule (Standard.word be32 block)) := by
  have hwords := words_of_schedule h (Standard.sha1Schedule (Standard.word be32 block))
    fun t ht => by rw [Standard.sha1Schedule, if_pos ht]
  rw [Sha1.schedule, hwords]
  refine foldl_snoc _ (fun w i => rotl32 (w.getD (i - 3) 0 ^^^ w.getD (i - 8) 0 ^^^
    w.getD (i - 14) 0 ^^^ w.getD (i - 16) 0) 1) (fun i hi => ?_) 64
  rw [getD_map_range _ (by omega), getD_map_range _ (by omega), getD_map_range _ (by omega),
    getD_map_range _ (by omega)]
  conv_rhs => rw [Standard.sha1Schedule, if_neg (by omega)]

theorem rounds_eq (W : ℕ → UInt32) (f : UInt32 → UInt32 → UInt32 → UInt32) (k : UInt32)
    (s : Words5) {n q : ℕ} (hn : n = q * 20)
    (hround : ∀ t, t / 20 = q → (∀ b c d, (Standard.sha1Round t).1 b c d = f b c d) ∧
      (Standard.sha1Round t).2 = k) :
    Sha1.rounds f k ((List.range' n 20).map W) s =
      (List.range' n 20).foldl (Standard.sha1Step W) s := by
  rw [Sha1.rounds, List.foldl_map]
  refine List.foldl_ext _ _ _ fun s t ht => ?_
  obtain ⟨hf, hk⟩ := hround t (by have := List.mem_range'_1.mp ht; omega)
  rw [Standard.sha1Step, hf, hk]

/-- **SHA-1 compresses blocks as FIPS 180-4 has it.** -/
theorem Sha1.compress_eq (s : Words5) (h : block.length = 64) :
    Sha1.compress s block = Standard.sha1Compress s block := by
  have hsplit : List.range 80 =
      List.range' 0 20 ++ List.range' 20 20 ++ List.range' 40 20 ++ List.range' 60 20 := rfl
  rw [Sha1.compress, Sha1.schedule_eq h, Standard.sha1Compress]
  generalize Standard.sha1Schedule (Standard.word be32 block) = W
  have h0 : ((List.range 80).map W).take 20 = (List.range' 0 20).map W := rfl
  have h1 : (((List.range 80).map W).drop 20).take 20 = (List.range' 20 20).map W := rfl
  have h2 : (((List.range 80).map W).drop 40).take 20 = (List.range' 40 20).map W := rfl
  have h3 : ((List.range 80).map W).drop 60 = (List.range' 60 20).map W := rfl
  rw [hsplit, List.foldl_append, List.foldl_append, List.foldl_append, ← hsplit, h0, h1, h2, h3]
  have hround : ∀ {t q}, t / 20 = q → Standard.sha1Round t = Standard.sha1Round (q * 20) := by
    intro t q ht
    rw [Standard.sha1Round, Standard.sha1Round, ht, Nat.mul_div_cancel _ (by decide)]
  rw [rounds_eq W (fun b c d => d ^^^ b &&& (c ^^^ d)) 0x5a827999 (q := 0) s rfl fun t ht => by
      rw [hround ht]
      exact ⟨fun b c d => (ch_eq b c d).symm, rfl⟩,
    rounds_eq W (fun b c d => b ^^^ c ^^^ d) 0x6ed9eba1 (q := 1) _ rfl fun t ht => by
      rw [hround ht]
      exact ⟨fun _ _ _ => rfl, rfl⟩,
    rounds_eq W (fun b c d => b &&& c ||| d &&& (b ||| c)) 0x8f1bbcdc (q := 2) _ rfl fun t ht => by
      rw [hround ht]
      exact ⟨fun b c d => (maj_eq b c d).symm, rfl⟩,
    rounds_eq W (fun b c d => b ^^^ c ^^^ d) 0xca62c1d6 (q := 3) _ rfl fun t ht => by
      rw [hround ht]
      exact ⟨fun _ _ _ => rfl, rfl⟩]

theorem Sha256.schedule_eq (h : block.length = 64) : Sha256.schedule block =
    (List.range 64).map (Standard.sha256Schedule (Standard.word be32 block)) := by
  have hwords := words_of_schedule h (Standard.sha256Schedule (Standard.word be32 block))
    fun t ht => by rw [Standard.sha256Schedule, if_pos ht]
  rw [Sha256.schedule, hwords]
  refine foldl_snoc _ (fun w i => w.getD (i - 16) 0 +
      (rotr32 (w.getD (i - 15) 0) 7 ^^^ rotr32 (w.getD (i - 15) 0) 18 ^^^ w.getD (i - 15) 0 >>> 3) +
      w.getD (i - 7) 0 +
      (rotr32 (w.getD (i - 2) 0) 17 ^^^ rotr32 (w.getD (i - 2) 0) 19 ^^^ w.getD (i - 2) 0 >>> 10))
    (fun i hi => ?_) 48
  rw [getD_map_range _ (by omega), getD_map_range _ (by omega), getD_map_range _ (by omega),
    getD_map_range _ (by omega)]
  conv_rhs => rw [Standard.sha256Schedule, if_neg (by omega)]
  simp only
  ac_rfl

theorem constants_eq : Sha256.K = (List.range 64).map (Sha256.K.getD · 0) := rfl

/-- **SHA-256 compresses blocks as FIPS 180-4 has it.** -/
theorem Sha256.compress_eq (s : Words8) (h : block.length = 64) :
    Sha256.compress s block = Standard.sha256Compress s block := by
  rw [Sha256.compress, Sha256.schedule_eq h, constants_eq, List.zip_map', List.foldl_map]
  rfl

/-! ### The padding -/

theorem pad_take {m n r : ℕ} (hr : r = n % 64) (hm : 63 ≤ m) :
    ((0x80 : UInt8) :: List.replicate m 0).take (if r < 56 then 56 - r else 120 - r) =
      0x80 :: List.replicate (padZeros 64 8 n) 0 := by
  have hlen : (if r < 56 then 56 - r else 120 - r) = padZeros 64 8 n + 1 := by
    rw [padZeros]
    split <;> omega
  have hle : padZeros 64 8 n ≤ m := by
    rw [padZeros]
    omega
  rw [hlen, List.take_succ_cons, List.take_replicate, Nat.min_eq_left hle]

theorem BlockBuffer.finish_fed {σ : Type} (compress : σ → List UInt8 → σ) (state : σ)
    (data length : List UInt8) (h : length.length = 8) :
    (BlockBuffer.fed compress state data).2.finish compress (BlockBuffer.fed compress state data).1
      length = mdHash 64 compress state length data := by
  refine feed_padding compress (by decide) state length data ?_
  rw [h]
  exact pad_take (m := 63) (length_remainder data) (Nat.le_refl _)

variable (data : List UInt8)

theorem leBytes_length :
    leBytes 8 (UInt64.ofNat data.length * 8).toNat = Standard.bitLength data := by
  rw [UInt64.toNat_mul, UInt64.toNat_ofNat']
  change leBytes 8 (data.length % 2 ^ 64 * 8 % 2 ^ 64) = leBytes 8 (data.length * 8 % 2 ^ 64)
  rw [Nat.mod_mul_mod]

theorem length_bitLength : (Standard.bitLength data).length = 8 :=
  length_leBytes _ _

/-- **The digest of one call is the one of RFC 1321.** -/
theorem Md5.digest_eq : Md5.digest data = Standard.md5 data := by
  have hfinish := BlockBuffer.finish_fed Md5.compress Md5.new.state data (Standard.bitLength data)
    (length_bitLength data)
  rw [mdHash_congr fun s _ => Md5.compress_eq s] at hfinish
  rw [Md5.digest, Md5.update, Md5.new, BlockBuffer.update_new, Md5.finalize,
    BlockBuffer.bitLength]
  simp only [BlockBuffer.fed, leBytes_length]
  exact congrArg (fun abcd : UInt32 × UInt32 × UInt32 × UInt32 =>
    [abcd.1, abcd.2.1, abcd.2.2.1, abcd.2.2.2].flatMap fun word => leBytes 4 word.toNat) hfinish

/-- **The digest of one call is the one of FIPS 180-4.** -/
theorem Sha1.digest_eq : Sha1.digest data = Standard.sha1 data := by
  have hfinish := BlockBuffer.finish_fed Sha1.compress Sha1.new.state data
    (Standard.bitLength data).reverse (by rw [List.length_reverse, length_bitLength])
  rw [mdHash_congr fun s _ => Sha1.compress_eq s] at hfinish
  rw [Sha1.digest, Sha1.update, Sha1.new, BlockBuffer.update_new, Sha1.finalize,
    BlockBuffer.bitLength]
  simp only [BlockBuffer.fed, leBytes_length]
  exact congrArg (fun s : Words5 => [s.1, s.2.1, s.2.2.1, s.2.2.2.1, s.2.2.2.2].flatMap
    fun word => (leBytes 4 word.toNat).reverse) hfinish

/-- **The digest of one call is the one of FIPS 180-4.** -/
theorem Sha256.digest_eq : Sha256.digest data = Standard.sha256 data := by
  have hfinish := feed_padding Sha256.compress (by decide) Sha256.INITIAL
    (Standard.bitLength data).reverse data (pad_take (m := 71) (length_remainder data) (by decide))
  rw [mdHash_congr fun s _ => Sha256.compress_eq s] at hfinish
  rw [Sha256.digest, Sha256.update_new, Sha256.finalize]
  simp only [Sha256.update, leBytes_length]
  exact congrArg (fun s : Words8 => [s.1, s.2.1, s.2.2.1, s.2.2.2.1, s.2.2.2.2.1, s.2.2.2.2.2.1,
    s.2.2.2.2.2.2.1, s.2.2.2.2.2.2.2].flatMap fun word => (leBytes 4 word.toNat).reverse) hfinish

/-! ### XXH64 -/

theorem stripes_eq (acc : Lanes) (data : List UInt8) :
    Standard.stripes acc data = absorb 32 stripe acc data := by
  fun_induction Standard.stripes acc data with
  | case1 acc data h ih =>
    rw [ih, absorb, absorb, blocks_of_le (by decide) h, remainder_of_le (by decide) h,
      List.foldl_cons]
    have htake : ∀ i, i < 4 → ((data.take 32).drop (i * 8)).take 8 = (data.drop (i * 8)).take 8 := by
      intro i hi
      rw [List.drop_take, List.take_take, Nat.min_eq_left (by omega)]
    have hstripe : stripe acc (data.take 32) =
        (round acc.1 (le64 (data.take 8)), round acc.2.1 (le64 ((data.drop 8).take 8)),
          round acc.2.2.1 (le64 ((data.drop 16).take 8)),
          round acc.2.2.2 (le64 ((data.drop 24).take 8))) := by
      simp only [stripe, htake _ (by decide : 0 < 4), htake _ (by decide : 1 < 4),
        htake _ (by decide : 2 < 4), htake _ (by decide : 3 < 4)]
      rfl
    rw [hstripe]
  | case2 acc data h =>
    rw [absorb, blocks_of_lt (Nat.lt_of_not_le h), remainder_of_lt (Nat.lt_of_not_le h)]
    rfl

/-- The tail: whole words, then at most one half, then bytes. -/
theorem tail_eq (acc : UInt64) (data : List UInt8) : Standard.avalanche (Standard.tail acc data) =
    finishRest acc data := by
  fun_induction Standard.tail acc data with
  | case1 acc data h ih =>
    rw [ih, finishRest, finishRest, blocks_of_le (by decide) h, remainder_of_le (by decide) h,
      List.foldl_cons]
  | case2 acc data h8 h4 ih =>
    have hlt : data.length < 8 := Nat.lt_of_not_le h8
    have hrest : (data.drop 4).length < 8 := by rw [List.length_drop]; omega
    rw [ih, finishRest, finishRest, blocks_of_lt hlt, remainder_of_lt hlt, blocks_of_lt hrest,
      remainder_of_lt hrest, blocks_of_le (by decide) h4, remainder_of_le (by decide) h4,
      List.foldl_cons]
    rfl
  | case3 acc byte data h8 h4 ih =>
    rw [List.length_cons] at h8 h4
    have hlt : (byte :: data).length < 4 := by rw [List.length_cons]; omega
    rw [ih, finishRest, finishRest, blocks_of_lt (by omega : (byte :: data).length < 8),
      remainder_of_lt (by omega : (byte :: data).length < 8), blocks_of_lt hlt,
      remainder_of_lt hlt, blocks_of_lt (by omega : data.length < 8),
      remainder_of_lt (by omega : data.length < 8), blocks_of_lt (by omega : data.length < 4),
      remainder_of_lt (by omega : data.length < 4)]
    rfl
  | case4 acc h8 h4 => rfl

/-- **The hash of one call is the one of the specification.** -/
theorem xxh64_eq (seed : UInt64) :
    xxh64 data seed = Standard.xxh64 data seed := by
  rw [xxh64, Standard.xxh64]
  by_cases h : data.length < 32
  · rw [if_pos h, blocks_of_lt h, remainder_of_lt h]
    exact (tail_eq _ _).symm
  · have hnil : (blocks 32 data).isEmpty = false := by
      rw [Bool.eq_false_iff, Ne, List.isEmpty_iff, blocks_eq_nil (by decide)]
      exact h
    rw [if_neg h, stripes_eq]
    simp only [hnil]
    exact (tail_eq _ _).symm

/-! ### Pieces -/

/-- Pieces are hashed like their concatenation when two are. -/
theorem foldl_fed {τ : Type} {new : τ} {update : τ → List UInt8 → τ} (hnil : update new [] = new)
    (hfed : ∀ x y, update (update new x) y = update new (x ++ y)) (pieces : List (List UInt8)) :
    pieces.foldl update new = update new pieces.flatten := by
  induction pieces using List.reverseRecOn with
  | nil => exact hnil.symm
  | append_singleton pieces piece ih =>
    rw [List.foldl_append, List.foldl_cons, List.foldl_nil, ih, hfed, List.flatten_append,
      List.flatten_singleton]

/-- **The digest of pieces is the one of their concatenation (proved)**, which is the standard's. -/
theorem hash_pieces (pieces : List (List UInt8)) :
    ((pieces.foldl Md5.update Md5.new).finalize = Md5.digest pieces.flatten ∧
      Md5.digest pieces.flatten = Standard.md5 pieces.flatten) ∧
    ((pieces.foldl Sha1.update Sha1.new).finalize = Sha1.digest pieces.flatten ∧
      Sha1.digest pieces.flatten = Standard.sha1 pieces.flatten) ∧
    ((pieces.foldl Sha256.update Sha256.new).finalize = Sha256.digest pieces.flatten ∧
      Sha256.digest pieces.flatten = Standard.sha256 pieces.flatten) ∧
    ∀ seed, pieces.flatten.length < 2 ^ 64 →
      (pieces.foldl Xxh64.update (Xxh64.new seed)).finish = xxh64 pieces.flatten seed ∧
        xxh64 pieces.flatten seed = Standard.xxh64 pieces.flatten seed := by
  refine ⟨⟨?_, Md5.digest_eq _⟩, ⟨?_, Sha1.digest_eq _⟩, ⟨?_, Sha256.digest_eq _⟩, fun seed h =>
    ⟨?_, xxh64_eq _ _⟩⟩
  · rw [foldl_fed rfl Md5.update_fed, Md5.digest]
  · rw [foldl_fed rfl Sha1.update_fed, Sha1.digest]
  · rw [foldl_fed rfl Sha256.update_fed, Sha256.digest]
  · rw [foldl_fed rfl (Xxh64.update_fed seed), Xxh64.finish_fed seed h]

/-- Three pieces, one of them empty: two stripes, a word and a byte. -/
theorem xxh64_pieces :
    ([List.replicate 20 1, [], List.replicate 53 2].foldl Xxh64.update (Xxh64.new 7)).finish =
      Standard.xxh64 [List.replicate 20 1, [], List.replicate 53 2].flatten 7 := by
  obtain ⟨hpieces, hstandard⟩ :=
    (hash_pieces [List.replicate 20 1, [], List.replicate 53 2]).2.2.2 7 (by decide)
  exact hpieces.trans hstandard

end Qld.Output.Hash
