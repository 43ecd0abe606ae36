import Qld.Lib.MerkleDamgard
import Qld.Output.Sha256

/-!
# The standards of the hash functions

The digests as RFC 1321, FIPS 180-4 and the xxHash specification state them: the whole message is
padded, or consumed stripe by stripe.

* `Standard.md5`, `Standard.sha1`, `Standard.sha256` — the blocks of the padded message;
* `Standard.xxh64` — the stripes of the message, and its tail.
-/

namespace Qld.Output.Hash

open Qld.Lib

/-! ### The standards -/

namespace Standard

/-- Word `t` of a block. -/
def word (read : List UInt8 → UInt32) (block : List UInt8) (t : ℕ) : UInt32 :=
  read ((block.drop (t * 4)).take 4)

/-- The length in bits, modulo `2 ^ 64`, as 8 bytes. -/
def bitLength (data : List UInt8) : List UInt8 := leBytes 8 (data.length * 8 % 2 ^ 64)

/-! #### MD5 -/

/-- `F`, `G`, `H` and `I`, each for sixteen operations. -/
def md5Function (i : ℕ) (x y z : UInt32) : UInt32 :=
  match i / 16 with
  | 0 => x &&& y ||| ~~~x &&& z
  | 1 => x &&& z ||| y &&& ~~~z
  | 2 => x ^^^ y ^^^ z
  | _ => y ^^^ (x ||| ~~~z)

/-- The word of an operation. -/
def md5Index (i : ℕ) : ℕ :=
  match i / 16 with
  | 0 => i
  | 1 => (1 + 5 * i) % 16
  | 2 => (5 + 3 * i) % 16
  | _ => 7 * i % 16

/-- `a = b + ((a + F(b, c, d) + X[k] + T[i]) <<< s)`, after which the registers take turns. -/
def md5Operation (X : ℕ → UInt32) (abcd : UInt32 × UInt32 × UInt32 × UInt32) (i : ℕ) :
    UInt32 × UInt32 × UInt32 × UInt32 :=
  let (a, b, c, d) := abcd
  (d, b + rotl32 (a + md5Function i b c d + X (md5Index i) + K.getD i 0) (S.getD i 0), b, c)

def md5Compress (state : UInt32 × UInt32 × UInt32 × UInt32) (block : List UInt8) :
    UInt32 × UInt32 × UInt32 × UInt32 :=
  let (a, b, c, d) := (List.range 64).foldl (md5Operation (word le32 block)) state
  (state.1 + a, state.2.1 + b, state.2.2.1 + c, state.2.2.2 + d)

def md5 (data : List UInt8) : List UInt8 :=
  let (a, b, c, d) := mdHash 64 md5Compress (0x67452301, 0xefcdab89, 0x98badcfe, 0x10325476)
    (bitLength data) data
  [a, b, c, d].flatMap fun word => leBytes 4 word.toNat

/-! #### SHA-1 -/

def ch (x y z : UInt32) : UInt32 := (x &&& y) ^^^ (~~~x &&& z)

def parity (x y z : UInt32) : UInt32 := x ^^^ y ^^^ z

def maj (x y z : UInt32) : UInt32 := (x &&& y) ^^^ (x &&& z) ^^^ (y &&& z)

/-- The message schedule. -/
def sha1Schedule (M : ℕ → UInt32) (t : ℕ) : UInt32 :=
  if t < 16 then M t
  else rotl32 (sha1Schedule M (t - 3) ^^^ sha1Schedule M (t - 8) ^^^ sha1Schedule M (t - 14) ^^^
    sha1Schedule M (t - 16)) 1

/-- The function and the constant of a round. -/
def sha1Round (t : ℕ) : (UInt32 → UInt32 → UInt32 → UInt32) × UInt32 :=
  match t / 20 with
  | 0 => (ch, 0x5a827999)
  | 1 => (parity, 0x6ed9eba1)
  | 2 => (maj, 0x8f1bbcdc)
  | _ => (parity, 0xca62c1d6)

def sha1Step (W : ℕ → UInt32) (abcde : Words5) (t : ℕ) : Words5 :=
  let (a, b, c, d, e) := abcde
  (rotl32 a 5 + (sha1Round t).1 b c d + e + (sha1Round t).2 + W t, a, rotl32 b 30, c, d)

def sha1Compress (state : Words5) (block : List UInt8) : Words5 :=
  let (a, b, c, d, e) :=
    (List.range 80).foldl (sha1Step (sha1Schedule (word be32 block))) state
  (state.1 + a, state.2.1 + b, state.2.2.1 + c, state.2.2.2.1 + d, state.2.2.2.2 + e)

def sha1 (data : List UInt8) : List UInt8 :=
  let (a, b, c, d, e) := mdHash 64 sha1Compress
    (0x67452301, 0xefcdab89, 0x98badcfe, 0x10325476, 0xc3d2e1f0) (bitLength data).reverse data
  [a, b, c, d, e].flatMap fun word => (leBytes 4 word.toNat).reverse

/-! #### SHA-256 -/

/-- The message schedule. -/
def sha256Schedule (M : ℕ → UInt32) (t : ℕ) : UInt32 :=
  if t < 16 then M t
  else
    let s0 (x : UInt32) : UInt32 := rotr32 x 7 ^^^ rotr32 x 18 ^^^ x >>> 3
    let s1 (x : UInt32) : UInt32 := rotr32 x 17 ^^^ rotr32 x 19 ^^^ x >>> 10
    s1 (sha256Schedule M (t - 2)) + sha256Schedule M (t - 7) + s0 (sha256Schedule M (t - 15)) +
      sha256Schedule M (t - 16)

def sha256Step (W : ℕ → UInt32) (s : Words8) (t : ℕ) : Words8 :=
  let (a, b, c, d, e, f, g, h) := s
  let t1 := h + (rotr32 e 6 ^^^ rotr32 e 11 ^^^ rotr32 e 25) + ch e f g + Sha256.K.getD t 0 + W t
  let t2 := (rotr32 a 2 ^^^ rotr32 a 13 ^^^ rotr32 a 22) + maj a b c
  (t1 + t2, a, b, c, d + t1, e, f, g)

def sha256Compress (state : Words8) (block : List UInt8) : Words8 :=
  Sha256.addWords state
    ((List.range 64).foldl (sha256Step (sha256Schedule (word be32 block))) state)

def sha256 (data : List UInt8) : List UInt8 :=
  let (a, b, c, d, e, f, g, h) := mdHash 64 sha256Compress
    (0x6a09e667, 0xbb67ae85, 0x3c6ef372, 0xa54ff53a, 0x510e527f, 0x9b05688c, 0x1f83d9ab, 0x5be0cd19)
    (bitLength data).reverse data
  [a, b, c, d, e, f, g, h].flatMap fun word => (leBytes 4 word.toNat).reverse

/-! #### XXH64 -/

/-- Whole stripes, each lane into its accumulator; what is left. -/
def stripes (acc : Lanes) (data : List UInt8) : Lanes × List UInt8 :=
  if 32 ≤ data.length then
    stripes (round acc.1 (le64 (data.take 8)), round acc.2.1 (le64 ((data.drop 8).take 8)),
      round acc.2.2.1 (le64 ((data.drop 16).take 8)),
      round acc.2.2.2 (le64 ((data.drop 24).take 8))) (data.drop 32)
  else (acc, data)
termination_by data.length

/-- The tail: words of 8 bytes, then of 4, then bytes. -/
def tail (acc : UInt64) (data : List UInt8) : UInt64 :=
  if 8 ≤ data.length then
    tail (rotl64 (acc ^^^ round 0 (le64 (data.take 8))) 27 * P1 + P4) (data.drop 8)
  else if 4 ≤ data.length then
    tail (rotl64 (acc ^^^ le64 (data.take 4) * P1) 23 * P2 + P3) (data.drop 4)
  else
    match data with
    | byte :: data => tail (rotl64 (acc ^^^ byte.toUInt64 * P5) 11 * P1) data
    | [] => acc
termination_by data.length

def avalanche (acc : UInt64) : UInt64 :=
  let acc := (acc ^^^ acc >>> 33) * P2
  let acc := (acc ^^^ acc >>> 29) * P3
  acc ^^^ acc >>> 32

def xxh64 (data : List UInt8) (seed : UInt64) : UInt64 :=
  let (acc, rest) :=
    if data.length < 32 then (seed + P5, data)
    else
      let (acc, rest) := stripes (seed + P1 + P2, seed + P2, seed, seed - P1) data
      let (v1, v2, v3, v4) := acc
      (mergeRound (mergeRound (mergeRound (mergeRound
        (rotl64 v1 1 + rotl64 v2 7 + rotl64 v3 12 + rotl64 v4 18) v1) v2) v3) v4, rest)
  avalanche (tail (acc + UInt64.ofNat data.length) rest)

end Standard

end Qld.Output.Hash
