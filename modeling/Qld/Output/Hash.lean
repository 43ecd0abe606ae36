import Qld.Lib.LittleEndian
import Qld.Lib.Streaming

/-!
# Hash functions

The incremental hash functions of build-ids.  A buffer holds the bytes that do not fill a block
yet.

* `BlockBuffer` — the buffer of MD5 and SHA-1, with the length that the padding ends in;
* `Md5`, `Sha1`, `Xxh64` — the hashers; `Md5.digest`, `Sha1.digest`, `xxh64` — one call;
* `Md5.update_fed`, `Sha1.update_fed`, `Xxh64.update_fed` — pieces are hashed like their
  concatenation;
* `Xxh64.finish_fed` — the incremental hash is the one of one call.
-/

namespace Qld.Output.Hash

open Qld.Lib

/-! ### Words -/

/-- `u32::rotate_left`. -/
def rotl32 (x : UInt32) (n : UInt32) : UInt32 := x <<< n ||| x >>> (32 - n)

/-- `u64::rotate_left`. -/
def rotl64 (x : UInt64) (n : UInt64) : UInt64 := x <<< n ||| x >>> (64 - n)

/-- `u32::from_le_bytes`. -/
def le32 (bytes : List UInt8) : UInt32 := UInt32.ofNat (leValue bytes)

/-- `u32::from_be_bytes`. -/
def be32 (bytes : List UInt8) : UInt32 := UInt32.ofNat (leValue bytes.reverse)

/-- `u64::from_le_bytes`. -/
def le64 (bytes : List UInt8) : UInt64 := UInt64.ofNat (leValue bytes)

/-! ### The buffer of MD5 and SHA-1 -/

/-- Size of the blocks MD5 and SHA-1 compress. -/
def BLOCK : ℕ := 64

/-- The bytes that do not fill a block, and the number of bytes hashed so far, modulo `2 ^ 64`. -/
structure BlockBuffer where
  buf : List UInt8
  total : UInt64
  deriving DecidableEq, Repr

namespace BlockBuffer

variable {σ : Type} (compress : σ → List UInt8 → σ)

def new : BlockBuffer := ⟨[], 0⟩

/-- Message length in bits, modulo `2 ^ 64`. -/
def bitLength (buffer : BlockBuffer) : UInt64 := buffer.total * 8

/-- Feeds `data`, compressing every complete block. -/
def update (buffer : BlockBuffer) (state : σ) (data : List UInt8) : σ × BlockBuffer :=
  let fed := feed BLOCK compress state buffer.buf data
  (fed.1, ⟨fed.2, buffer.total + UInt64.ofNat data.length⟩)

/-- Appends the padding: `0x80`, zeros up to 56 bytes modulo 64, then the message length in bits. -/
def finish (buffer : BlockBuffer) (state : σ) (length : List UInt8) : σ :=
  let pad : List UInt8 := 0x80 :: List.replicate 63 0
  let padLen := if buffer.buf.length < 56 then 56 - buffer.buf.length else 120 - buffer.buf.length
  let padded := feed BLOCK compress state buffer.buf (pad.take padLen)
  (feed BLOCK compress padded.1 padded.2 length).1

end BlockBuffer

/-! ### MD5 -/

/-- Per-round additive constants. -/
def K : List UInt32 := [
    0xd76aa478, 0xe8c7b756, 0x242070db, 0xc1bdceee, 0xf57c0faf, 0x4787c62a,
    0xa8304613, 0xfd469501, 0x698098d8, 0x8b44f7af, 0xffff5bb1, 0x895cd7be,
    0x6b901122, 0xfd987193, 0xa679438e, 0x49b40821, 0xf61e2562, 0xc040b340,
    0x265e5a51, 0xe9b6c7aa, 0xd62f105d, 0x02441453, 0xd8a1e681, 0xe7d3fbc8,
    0x21e1cde6, 0xc33707d6, 0xf4d50d87, 0x455a14ed, 0xa9e3e905, 0xfcefa3f8,
    0x676f02d9, 0x8d2a4c8a, 0xfffa3942, 0x8771f681, 0x6d9d6122, 0xfde5380c,
    0xa4beea44, 0x4bdecfa9, 0xf6bb4b60, 0xbebfbc70, 0x289b7ec6, 0xeaa127fa,
    0xd4ef3085, 0x04881d05, 0xd9d4d039, 0xe6db99e5, 0x1fa27cf8, 0xc4ac5665,
    0xf4292244, 0x432aff97, 0xab9423a7, 0xfc93a039, 0x655b59c3, 0x8f0ccc92,
    0xffeff47d, 0x85845dd1, 0x6fa87e4f, 0xfe2ce6e0, 0xa3014314, 0x4e0811a1,
    0xf7537e82, 0xbd3af235, 0x2ad7d2bb, 0xeb86d391]

/-- Per-round left-rotation amounts. -/
def S : List UInt32 := [
    7, 12, 17, 22, 7, 12, 17, 22, 7, 12, 17, 22, 7, 12, 17, 22,
    5, 9, 14, 20, 5, 9, 14, 20, 5, 9, 14, 20, 5, 9, 14, 20,
    4, 11, 16, 23, 4, 11, 16, 23, 4, 11, 16, 23, 4, 11, 16, 23,
    6, 10, 15, 21, 6, 10, 15, 21, 6, 10, 15, 21, 6, 10, 15, 21]

/-- Incremental MD5 hasher. -/
structure Md5 where
  state : UInt32 × UInt32 × UInt32 × UInt32
  buffer : BlockBuffer
  deriving DecidableEq, Repr

namespace Md5

/-- One round, with the constants of its number. -/
def round (m : List UInt32) (abcd : UInt32 × UInt32 × UInt32 × UInt32)
    (ksi : (UInt32 × UInt32) × ℕ) : UInt32 × UInt32 × UInt32 × UInt32 :=
  let (a, b, c, d) := abcd
  let ((k, s), i) := ksi
  let (f, g) :=
    if i < 16 then (b &&& c ||| ~~~b &&& d, i)
    else if i < 32 then (d &&& b ||| ~~~d &&& c, i * 5 + 1)
    else if i < 48 then (b ^^^ c ^^^ d, i * 3 + 5)
    else (c ^^^ (b ||| ~~~d), i * 7)
  let f := f + a + k + m.getD (g % 16) 0
  (d, b + rotl32 f s, b, c)

def compress (state : UInt32 × UInt32 × UInt32 × UInt32) (block : List UInt8) :
    UInt32 × UInt32 × UInt32 × UInt32 :=
  let m := (blocks 4 block).map le32
  let (a, b, c, d) := (K.zip S).zipIdx.foldl (round m) state
  (state.1 + a, state.2.1 + b, state.2.2.1 + c, state.2.2.2 + d)

def new : Md5 := ⟨(0x67452301, 0xefcdab89, 0x98badcfe, 0x10325476), .new⟩

/-- Appends `data` to the message. -/
def update (hasher : Md5) (data : List UInt8) : Md5 :=
  let updated := hasher.buffer.update compress hasher.state data
  ⟨updated.1, updated.2⟩

/-- Pads the message and returns the digest. -/
def finalize (hasher : Md5) : List UInt8 :=
  let length := leBytes 8 hasher.buffer.bitLength.toNat
  let (a, b, c, d) := hasher.buffer.finish compress hasher.state length
  [a, b, c, d].flatMap fun word => leBytes 4 word.toNat

/-- Hashes `data` in one call. -/
def digest (data : List UInt8) : List UInt8 := (new.update data).finalize

end Md5

/-! ### SHA-1 -/

/-- The working variables of SHA-1. -/
abbrev Words5 := UInt32 × UInt32 × UInt32 × UInt32 × UInt32

/-- Incremental SHA-1 hasher. -/
structure Sha1 where
  state : Words5
  buffer : BlockBuffer
  deriving DecidableEq, Repr

namespace Sha1

/-- A group of rounds: `f` is the round function, `k` the constant. -/
def rounds (f : UInt32 → UInt32 → UInt32 → UInt32) (k : UInt32) (words : List UInt32)
    (abcde : Words5) : Words5 :=
  words.foldl (fun (a, b, c, d, e) word =>
    (rotl32 a 5 + f b c d + e + k + word, a, rotl32 b 30, c, d)) abcde

/-- The message schedule: sixteen words, and those made of them. -/
def schedule (block : List UInt8) : List UInt32 :=
  (List.range' 16 64).foldl (fun w i =>
    w ++ [rotl32 (w.getD (i - 3) 0 ^^^ w.getD (i - 8) 0 ^^^ w.getD (i - 14) 0 ^^^ w.getD (i - 16) 0) 1])
    ((blocks 4 block).map be32)

def compress (state : Words5) (block : List UInt8) : Words5 :=
  let w := schedule block
  let s := rounds (fun b c d => d ^^^ b &&& (c ^^^ d)) 0x5a827999 (w.take 20) state
  let s := rounds (fun b c d => b ^^^ c ^^^ d) 0x6ed9eba1 ((w.drop 20).take 20) s
  let s := rounds (fun b c d => b &&& c ||| d &&& (b ||| c)) 0x8f1bbcdc ((w.drop 40).take 20) s
  let (a, b, c, d, e) := rounds (fun b c d => b ^^^ c ^^^ d) 0xca62c1d6 (w.drop 60) s
  (state.1 + a, state.2.1 + b, state.2.2.1 + c, state.2.2.2.1 + d, state.2.2.2.2 + e)

def new : Sha1 := ⟨(0x67452301, 0xefcdab89, 0x98badcfe, 0x10325476, 0xc3d2e1f0), .new⟩

/-- Appends `data` to the message. -/
def update (hasher : Sha1) (data : List UInt8) : Sha1 :=
  let updated := hasher.buffer.update compress hasher.state data
  ⟨updated.1, updated.2⟩

/-- Pads the message and returns the digest. -/
def finalize (hasher : Sha1) : List UInt8 :=
  let length := (leBytes 8 hasher.buffer.bitLength.toNat).reverse
  let (a, b, c, d, e) := hasher.buffer.finish compress hasher.state length
  [a, b, c, d, e].flatMap fun word => (leBytes 4 word.toNat).reverse

/-- Hashes `data` in one call. -/
def digest (data : List UInt8) : List UInt8 := (new.update data).finalize

end Sha1

/-! ### xxHash64 -/

def P1 : UInt64 := 0x9e3779b185ebca87

def P2 : UInt64 := 0xc2b2ae3d27d4eb4f

def P3 : UInt64 := 0x165667b19e3779f9

def P4 : UInt64 := 0x85ebca77c2b2ae63

def P5 : UInt64 := 0x27d4eb2f165667c5

def round (acc input : UInt64) : UInt64 := rotl64 (acc + input * P2) 31 * P1

def mergeRound (acc value : UInt64) : UInt64 := (acc ^^^ round 0 value) * P1 + P4

/-- The four accumulators. -/
abbrev Lanes := UInt64 × UInt64 × UInt64 × UInt64

/-- Consumes a stripe of 32 bytes. -/
def stripe (lanes : Lanes) (bytes : List UInt8) : Lanes :=
  let lane (i : ℕ) : UInt64 := le64 ((bytes.drop (i * 8)).take 8)
  (round lanes.1 (lane 0), round lanes.2.1 (lane 1), round lanes.2.2.1 (lane 2),
    round lanes.2.2.2 (lane 3))

def seedLanes (seed : UInt64) : Lanes := (seed + P1 + P2, seed + P2, seed, seed - P1)

/-- The accumulators in one word. -/
def mergeLanes (lanes : Lanes) : UInt64 :=
  let (v1, v2, v3, v4) := lanes
  let hash := rotl64 v1 1 + rotl64 v2 7 + rotl64 v3 12 + rotl64 v4 18
  [v1, v2, v3, v4].foldl mergeRound hash

/-- What follows the stripes: the last bytes, and the avalanche. -/
def finishRest (hash : UInt64) (rest : List UInt8) : UInt64 :=
  let hash := (blocks 8 rest).foldl (fun hash word =>
    rotl64 (hash ^^^ round 0 (le64 word)) 27 * P1 + P4) hash
  let tail := remainder 8 rest
  let hash := (blocks 4 tail).foldl (fun hash half =>
    rotl64 (hash ^^^ le64 half * P1) 23 * P2 + P3) hash
  let hash := (remainder 4 tail).foldl (fun hash byte =>
    rotl64 (hash ^^^ byte.toUInt64 * P5) 11 * P1) hash
  let hash := (hash ^^^ hash >>> 33) * P2
  let hash := (hash ^^^ hash >>> 29) * P3
  hash ^^^ hash >>> 32

/-- The 64-bit xxHash of `data`. -/
def xxh64 (data : List UInt8) (seed : UInt64) : UInt64 :=
  let stripes := blocks 32 data
  let hash := if stripes.isEmpty then seed + P5
    else mergeLanes (stripes.foldl stripe (seedLanes seed))
  finishRest (hash + UInt64.ofNat data.length) (remainder 32 data)

/-- Incremental xxHash64; `buf` holds the bytes not yet consumed. -/
structure Xxh64 where
  seed : UInt64
  lanes : Lanes
  buf : List UInt8
  total : UInt64
  deriving DecidableEq, Repr

namespace Xxh64

def new (seed : UInt64) : Xxh64 := ⟨seed, seedLanes seed, [], 0⟩

/-- Appends `data` to the input. -/
def update (hasher : Xxh64) (data : List UInt8) : Xxh64 :=
  let fed := feed 32 stripe hasher.lanes hasher.buf data
  { hasher with lanes := fed.1, buf := fed.2, total := hasher.total + UInt64.ofNat data.length }

/-- The hash of everything appended so far. -/
def finish (hasher : Xxh64) : UInt64 :=
  let hash := if hasher.total < 32 then hasher.seed + P5 else mergeLanes hasher.lanes
  finishRest (hash + hasher.total) hasher.buf

end Xxh64

/-! ### Pieces are hashed like their concatenation -/

theorem ofNat_length_append (x y : List UInt8) :
    UInt64.ofNat x.length + UInt64.ofNat y.length = UInt64.ofNat (x ++ y).length := by
  rw [List.length_append, UInt64.ofNat_add]

section

variable {σ : Type} (compress : σ → List UInt8 → σ)

/-- The buffer after some data, from the start. -/
def BlockBuffer.fed (state : σ) (data : List UInt8) : σ × BlockBuffer :=
  let absorbed := absorb BLOCK compress state data
  (absorbed.1, ⟨absorbed.2, UInt64.ofNat data.length⟩)

theorem BlockBuffer.update_new (state : σ) (data : List UInt8) :
    BlockBuffer.new.update compress state data = BlockBuffer.fed compress state data := by
  rw [update, fed, feed, new, if_pos rfl, UInt64.zero_add]

theorem BlockBuffer.update_fed (state : σ) (x y : List UInt8) :
    (BlockBuffer.fed compress state x).2.update compress (BlockBuffer.fed compress state x).1 y =
      BlockBuffer.fed compress state (x ++ y) := by
  rw [update]
  simp only [fed]
  rw [feed_absorb (by decide), ofNat_length_append]

end

theorem Md5.update_fed (x y : List UInt8) :
    (Md5.new.update x).update y = Md5.new.update (x ++ y) := by
  have hfed := BlockBuffer.update_fed Md5.compress Md5.new.state x y
  simp only [Md5.update, Md5.new, BlockBuffer.update_new] at hfed ⊢
  rw [hfed]

theorem Sha1.update_fed (x y : List UInt8) :
    (Sha1.new.update x).update y = Sha1.new.update (x ++ y) := by
  have hfed := BlockBuffer.update_fed Sha1.compress Sha1.new.state x y
  simp only [Sha1.update, Sha1.new, BlockBuffer.update_new] at hfed ⊢
  rw [hfed]

theorem Xxh64.update_new (seed : UInt64) (data : List UInt8) : (Xxh64.new seed).update data =
    ⟨seed, (absorb 32 stripe (seedLanes seed) data).1, remainder 32 data,
      UInt64.ofNat data.length⟩ := by
  rw [update, new, feed, if_pos rfl, UInt64.zero_add]
  rfl

theorem Xxh64.update_fed (seed : UInt64) (x y : List UInt8) :
    ((Xxh64.new seed).update x).update y = (Xxh64.new seed).update (x ++ y) := by
  rw [update_new seed (x ++ y), update_new seed x, update]
  have hfed : feed 32 stripe _ (remainder 32 x) y = _ :=
    feed_absorb (by decide) (seedLanes seed) x y
  simp only [hfed, ofNat_length_append]
  rfl

/-- **The incremental hash is the one of one call**, for data of any length that can be. -/
theorem Xxh64.finish_fed (seed : UInt64) {data : List UInt8} (h : data.length < 2 ^ 64) :
    ((Xxh64.new seed).update data).finish = xxh64 data seed := by
  rw [update_new, finish, xxh64]
  have hlt : UInt64.ofNat data.length < 32 ↔ (blocks 32 data).isEmpty = true := by
    rw [List.isEmpty_iff, blocks_eq_nil (by decide), UInt64.lt_iff_toNat_lt,
      UInt64.toNat_ofNat_of_lt' h]
    rfl
  simp only [hlt]
  rfl

end Qld.Output.Hash
