import Qld.Debug.Adler32
import Qld.Elf.Bytes

/-!
# zlib streams in chunks

* `zlibCompressChunked` — compresses the chunks of some data one by one, whatever compresses one;
* `foldl_appendPart` — what stands after some of the chunks;
* `zlibCompressChunked_eq` — the stream is its header, the chunks and the checksum of
  the data.
-/

namespace Qld.Debug.Deflate

open Qld.Debug.Adler32 Qld.Elf

/-- `Level::zlib_flg`. -/
def zlibFlg (level : ℕ) : UInt8 :=
  if level ≤ 1 then 0x01 else if level ≤ 5 then 0x5e else if level = 6 then 0x9c else 0xda

/-- The header is a multiple of 31, and asks for no dictionary. -/
theorem zlibFlg_mod (level : ℕ) :
    (0x78 * 256 + (zlibFlg level).toNat) % 31 = 0 ∧ zlibFlg level &&& 0x20 = 0 := by
  rw [zlibFlg]
  split_ifs <;> decide

section Chunks

variable (deflateChunk : List UInt8 → ℕ → Bool → List UInt8) (data : List UInt8) (level size : ℕ)

/-- The ends of chunk `i`. -/
def bounds (i : ℕ) : ℕ × ℕ :=
  let start := min (i * size) data.length
  (start, min (start + size) data.length)

/-- Chunk `i`. -/
def chunkAt (i : ℕ) : List UInt8 :=
  (data.drop (bounds data size i).1).take ((bounds data size i).2 - (bounds data size i).1)

/-- Appends a compressed chunk, and combines the checksum with its. -/
def appendPart (s : List UInt8 × UInt32) (part : (List UInt8 × UInt32) × ℕ) :
    List UInt8 × UInt32 :=
  let (start, stop) := bounds data size part.2
  (s.1 ++ part.1.1, adler32Combine s.2 part.1.2 (UInt64.ofNat (stop - start)))

def zlibCompressChunked (chunkSize : ℕ) : List UInt8 :=
  let size := max chunkSize 1
  let count := max ((data.length + size - 1) / size) 1
  let parts := (List.range count).map fun i =>
    (deflateChunk (chunkAt data size i) level (i + 1 == count), adler32 (chunkAt data size i))
  let (out, checksum) :=
    parts.zipIdx.foldl (appendPart data size) ([0x78, zlibFlg level], ADLER32_INIT)
  out ++ beBytes 4 checksum.toNat

/-- `out` holds all of `data`, in chunks of `size` bytes and a last one, and their checksum. -/
def InChunks (out : List UInt8) : Prop :=
  ∃ (chunks : List (List UInt8)) (last : List UInt8), chunks.flatten ++ last = data ∧
    (∀ chunk ∈ chunks, chunk.length = size) ∧ last.length ≤ size ∧
    out = [0x78, zlibFlg level] ++ (chunks.flatMap fun chunk => deflateChunk chunk level false) ++
      deflateChunk last level true ++ beBytes 4 (adler32 data).toNat

end Chunks

variable {deflateChunk : List UInt8 → ℕ → Bool → List UInt8} {data : List UInt8} {level size : ℕ}

theorem length_chunkAt (i : ℕ) :
    (chunkAt data size i).length = (bounds data size i).2 - (bounds data size i).1 := by
  rw [chunkAt, List.length_take, List.length_drop, bounds]
  omega

theorem take_append_chunkAt (i : ℕ) :
    data.take (i * size) ++ chunkAt data size i = data.take ((i + 1) * size) := by
  have hstop : data.take ((i + 1) * size) = data.take (bounds data size i).2 := by
    rw [List.take_eq_take_min, bounds, Nat.succ_mul]
    congr 1
    omega
  have hle : (bounds data size i).1 ≤ (bounds data size i).2 := by
    rw [bounds]
    omega
  rw [List.take_eq_take_min, hstop, chunkAt, ← Nat.add_sub_cancel' hle, List.take_add,
    Nat.add_sub_cancel_left]
  rfl

theorem flatten_chunkAt (n : ℕ) :
    ((List.range n).map (chunkAt data size)).flatten = data.take (n * size) := by
  induction n with
  | zero => simp
  | succ n ih =>
    rw [List.range_succ, List.map_append, List.flatten_append, ih, List.map_singleton,
      List.flatten_singleton, take_append_chunkAt]

/-- **Some of the chunks.** -/
theorem foldl_appendPart (hlen : data.length < 2 ^ 64) (head : List UInt8)
    (compress : ℕ → List UInt8) (n : ℕ) :
    ((List.range n).map fun i => (compress i, adler32 (chunkAt data size i))).zipIdx.foldl
        (appendPart data size) (head, ADLER32_INIT) =
      (head ++ (List.range n).flatMap compress, adler32 (data.take (n * size))) := by
  induction n with
  | zero => simp; rfl
  | succ n ih =>
    have hchunk : (chunkAt data size n).length < 2 ^ 64 := by
      rw [length_chunkAt, bounds]
      omega
    rw [List.range_succ, List.map_append, List.zipIdx_append, List.foldl_append, ih,
      ← take_append_chunkAt, ← adler32Combine_adler32 _ hchunk, length_chunkAt]
    simp [appendPart]

/-- **The stream holds all of the data, in chunks (proved).** -/
theorem zlibCompressChunked_eq (deflateChunk : List UInt8 → ℕ → Bool → List UInt8)
    (data : List UInt8) (level chunkSize : ℕ) (hlen : data.length < 2 ^ 64) :
    InChunks deflateChunk data level (max chunkSize 1)
      (zlibCompressChunked deflateChunk data level chunkSize) := by
  rw [zlibCompressChunked]
  generalize hsize : max chunkSize 1 = size
  have hpos : 0 < size := by omega
  obtain ⟨n, hn⟩ : ∃ n, max ((data.length + size - 1) / size) 1 = n + 1 :=
    ⟨_, (Nat.sub_add_cancel (Nat.le_max_right _ 1)).symm⟩
  have hfull : n * size ≤ data.length ∧ data.length ≤ (n + 1) * size := by
    have hle := Nat.div_mul_le_self (data.length + size - 1) size
    have hlt := Nat.lt_mul_div_succ (data.length + size - 1) hpos
    generalize (data.length + size - 1) / size = q at hn hle hlt
    rcases Nat.eq_zero_or_pos q with rfl | hq
    · obtain rfl : n = 0 := by omega
      omega
    · obtain rfl : q = n + 1 := by omega
      rw [Nat.mul_comm, Nat.succ_mul] at hlt
      rw [Nat.succ_mul] at hle hlt ⊢
      omega
  simp only [hn]
  rw [foldl_appendPart hlen _ fun i => deflateChunk (chunkAt data size i) level (i + 1 == n + 1)]
  refine ⟨(List.range n).map (chunkAt data size), chunkAt data size n, ?_, ?_, ?_, ?_⟩
  · rw [flatten_chunkAt, take_append_chunkAt, List.take_of_length_le hfull.2]
  · intro chunk hchunk
    obtain ⟨i, hi, rfl⟩ := List.mem_map.mp hchunk
    have hend : (i + 1) * size ≤ n * size := Nat.mul_le_mul_right _ (List.mem_range.mp hi)
    rw [Nat.succ_mul] at hend
    rw [length_chunkAt, bounds]
    omega
  · rw [length_chunkAt, bounds]
    omega
  · have hfirst : ((List.range n).flatMap fun i =>
        deflateChunk (chunkAt data size i) level (i + 1 == n + 1)) =
        (List.range n).flatMap fun i => deflateChunk (chunkAt data size i) level false := by
      refine List.flatMap_congr fun i hi => ?_
      rw [beq_eq_false_iff_ne.mpr (Nat.ne_of_lt (Nat.succ_lt_succ (List.mem_range.mp hi)))]
    rw [List.take_of_length_le hfull.2, List.range_succ, List.flatMap_append, hfirst,
      List.flatMap_map]
    simp

/-- Marks the last chunk. -/
def markChunk (chunk : List UInt8) (_ : ℕ) (last : Bool) : List UInt8 :=
  (if last then 1 else 0) :: chunk

/-- Three bytes in chunks of two. -/
theorem zlibCompressChunked_eq_three :
    InChunks markChunk [1, 2, 3] 1 2 (zlibCompressChunked markChunk [1, 2, 3] 1 2) :=
  zlibCompressChunked_eq markChunk [1, 2, 3] 1 2 (by decide)

end Qld.Debug.Deflate
