import Qld.Output.Hash

/-!
# SHA-256

The hash of the pages of a code signature.  Its hasher has a buffer of its own.

* `Sha256` — the hasher; `Sha256.digest` — one call;
* `Sha256.update_fed` — pieces are hashed like their concatenation.
-/

namespace Qld.Output.Hash

open Qld.Lib

/-- `u32::rotate_right`. -/
def rotr32 (x : UInt32) (n : UInt32) : UInt32 := x >>> n ||| x <<< (32 - n)

/-- The working variables of SHA-256. -/
abbrev Words8 := UInt32 × UInt32 × UInt32 × UInt32 × UInt32 × UInt32 × UInt32 × UInt32

/-- An incremental SHA-256 hasher: the state, the bytes that do not fill a block, and the length in
bits. -/
structure Sha256 where
  state : Words8
  buffer : List UInt8
  length : UInt64
  deriving Repr

namespace Sha256

def K : List UInt32 := [
    0x428a2f98, 0x71374491, 0xb5c0fbcf, 0xe9b5dba5, 0x3956c25b, 0x59f111f1,
    0x923f82a4, 0xab1c5ed5, 0xd807aa98, 0x12835b01, 0x243185be, 0x550c7dc3,
    0x72be5d74, 0x80deb1fe, 0x9bdc06a7, 0xc19bf174, 0xe49b69c1, 0xefbe4786,
    0x0fc19dc6, 0x240ca1cc, 0x2de92c6f, 0x4a7484aa, 0x5cb0a9dc, 0x76f988da,
    0x983e5152, 0xa831c66d, 0xb00327c8, 0xbf597fc7, 0xc6e00bf3, 0xd5a79147,
    0x06ca6351, 0x14292967, 0x27b70a85, 0x2e1b2138, 0x4d2c6dfc, 0x53380d13,
    0x650a7354, 0x766a0abb, 0x81c2c92e, 0x92722c85, 0xa2bfe8a1, 0xa81a664b,
    0xc24b8b70, 0xc76c51a3, 0xd192e819, 0xd6990624, 0xf40e3585, 0x106aa070,
    0x19a4c116, 0x1e376c08, 0x2748774c, 0x34b0bcb5, 0x391c0cb3, 0x4ed8aa4a,
    0x5b9cca4f, 0x682e6ff3, 0x748f82ee, 0x78a5636f, 0x84c87814, 0x8cc70208,
    0x90befffa, 0xa4506ceb, 0xbef9a3f7, 0xc67178f2]

def INITIAL : Words8 :=
  (0x6a09e667, 0xbb67ae85, 0x3c6ef372, 0xa54ff53a, 0x510e527f, 0x9b05688c, 0x1f83d9ab, 0x5be0cd19)

/-- The message schedule: sixteen words, and those made of them. -/
def schedule (block : List UInt8) : List UInt32 :=
  (List.range' 16 48).foldl (fun w i =>
    w ++ [w.getD (i - 16) 0 +
      (rotr32 (w.getD (i - 15) 0) 7 ^^^ rotr32 (w.getD (i - 15) 0) 18 ^^^ w.getD (i - 15) 0 >>> 3) +
      w.getD (i - 7) 0 +
      (rotr32 (w.getD (i - 2) 0) 17 ^^^ rotr32 (w.getD (i - 2) 0) 19 ^^^ w.getD (i - 2) 0 >>> 10)])
    ((blocks 4 block).map be32)

/-- One round, with its constant and its word. -/
def round (s : Words8) (kw : UInt32 × UInt32) : Words8 :=
  let (a, b, c, d, e, f, g, h) := s
  let t1 := h + (rotr32 e 6 ^^^ rotr32 e 11 ^^^ rotr32 e 25) + ((e &&& f) ^^^ (~~~e &&& g)) +
    kw.1 + kw.2
  let t2 := (rotr32 a 2 ^^^ rotr32 a 13 ^^^ rotr32 a 22) +
    ((a &&& b) ^^^ (a &&& c) ^^^ (b &&& c))
  (t1 + t2, a, b, c, d + t1, e, f, g)

/-- The words added one by one. -/
def addWords (s t : Words8) : Words8 :=
  let (a, b, c, d, e, f, g, h) := t
  (s.1 + a, s.2.1 + b, s.2.2.1 + c, s.2.2.2.1 + d, s.2.2.2.2.1 + e, s.2.2.2.2.2.1 + f,
    s.2.2.2.2.2.2.1 + g, s.2.2.2.2.2.2.2 + h)

def compress (state : Words8) (block : List UInt8) : Words8 :=
  addWords state ((K.zip (schedule block)).foldl round state)

def new : Sha256 := ⟨INITIAL, [], 0⟩

/-- Adds `data` to the message. -/
def update (hasher : Sha256) (data : List UInt8) : Sha256 :=
  let fed := feed 64 compress hasher.state hasher.buffer data
  ⟨fed.1, fed.2, hasher.length + UInt64.ofNat data.length * 8⟩

/-- Finishes the hash. -/
def finalize (hasher : Sha256) : List UInt8 :=
  let length := hasher.length
  let padding : List UInt8 := 0x80 :: List.replicate 71 0
  let pad := if hasher.buffer.length < 56 then 56 - hasher.buffer.length
    else 120 - hasher.buffer.length
  -- The padding counts into the length, which was taken before.
  let padded := hasher.update (padding.take pad)
  let (a, b, c, d, e, f, g, h) := (padded.update (leBytes 8 length.toNat).reverse).state
  [a, b, c, d, e, f, g, h].flatMap fun word => (leBytes 4 word.toNat).reverse

/-- Hashes `data` in one call. -/
def digest (data : List UInt8) : List UInt8 := (new.update data).finalize

/-! ### Pieces are hashed like their concatenation -/

theorem update_new (data : List UInt8) : new.update data =
    ⟨(absorb 64 compress INITIAL data).1, remainder 64 data, UInt64.ofNat data.length * 8⟩ := by
  rw [update, new, feed, if_pos rfl, UInt64.zero_add]
  rfl

theorem update_fed (x y : List UInt8) : (new.update x).update y = new.update (x ++ y) := by
  rw [update_new (x ++ y), update_new x, update]
  have hfed : feed 64 compress _ (remainder 64 x) y = _ := feed_absorb (by decide) INITIAL x y
  simp only [hfed, ← ofNat_length_append, UInt64.add_mul]
  rfl

end Sha256

end Qld.Output.Hash
