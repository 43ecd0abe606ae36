import Mathlib.Algebra.Order.BigOperators.Group.List
import Mathlib.Algebra.Order.Group.Nat
import Qld.Lib.Cells
import Qld.Output.Chunks
import Qld.Output.Hash

/-!
# The write backing

A build-id is a hash of the hashes of the blocks of the image.

* `BlockHasher` — the hash function of a mode, fed incrementally;
* `computeBuildId`, `combineDigests` — the build-id of an image, and from the digests of its blocks;
* `BlockHasher.update_fed`, `BlockHasher.finish_fed` — the incremental hash is the one of
  one call;
* `combineDigests_leaves` — the digests of the blocks give the build-id of the image.

Chunks are rendered into the buffers of regions, written to the file, and hashed on the way.  The
host is a 64-bit one, and reads and writes inside the file succeed.

* `planRegions` — consecutive chunks with the block of their last byte in common;
* `writeChunks`, `runRegion`, `hashRegion` — the regions are written, and their blocks are hashed;
* `finishBuildId`, `blockDigest` — the build-id, from what the regions learned or by reading back.
-/

namespace Qld.Output

open Qld.Lib Qld.Output.Hash

/-- Size of the blocks that are hashed in parallel: 1 MiB. -/
def BLOCK_SIZE : ℕ := 2 ^ 20

/-- The modes of `--build-id`. -/
inductive BuildId where
  | none
  | fast
  | md5
  | sha1
  | uuid
  | hex (bytes : List UInt8)
  deriving DecidableEq, Repr

/-- The block hash of a content-derived mode, fed incrementally. -/
inductive BlockHasher where
  | fast (hasher : Xxh64)
  | md5 (hasher : Md5)
  | sha1 (hasher : Sha1)
  deriving DecidableEq, Repr

namespace BlockHasher

/-- A fresh hasher, if the mode is content-derived. -/
def new : BuildId → Option BlockHasher
  | .fast => some (.fast (.new 0))
  | .md5 => some (.md5 .new)
  | .sha1 => some (.sha1 .new)
  | .none | .uuid | .hex _ => none

def update (hasher : BlockHasher) (data : List UInt8) : BlockHasher :=
  match hasher with
  | .fast h => .fast (h.update data)
  | .md5 h => .md5 (h.update data)
  | .sha1 h => .sha1 (h.update data)

/-- The zeros that are fed at once. -/
def ZEROS : ℕ := 4096

/-- The loop that feeds `count` zero bytes. -/
def zerosLoop : ℕ → BlockHasher → ℕ → BlockHasher
  | 0, hasher, _ => hasher
  | fuel + 1, hasher, count =>
    if count = 0 then hasher
    else
      let take := min count ZEROS
      zerosLoop fuel (hasher.update (List.replicate take 0)) (count - take)

/-- Feeds `count` zero bytes. -/
def updateZeros (hasher : BlockHasher) (count : ℕ) : BlockHasher :=
  zerosLoop (count / ZEROS + 1) hasher count

def finish : BlockHasher → List UInt8
  | .fast h => (leBytes 8 h.finish.toNat).reverse
  | .md5 h => h.finalize
  | .sha1 h => h.finalize

end BlockHasher

/-- `slice.chunks(n)`: the blocks, the last of which may be shorter. -/
def chunks {β : Type} (n : ℕ) (data : List β) : List (List β) :=
  (List.range ((data.length + (n - 1)) / n)).map fun b => (data.drop (b * n)).take n

/-- `leaf` over every block, then over the concatenated digests. -/
def treeHash (image : List UInt8) (leaf : List UInt8 → List UInt8) : List UInt8 :=
  leaf ((chunks BLOCK_SIZE image).map leaf).flatten

/-- The build-id of `image` as it is; `uuid` is what the random source gives. -/
def computeBuildId (uuid : List UInt8) (kind : BuildId) (image : List UInt8) :
    Option (List UInt8) :=
  match kind with
  | .none => none
  | .fast => some (treeHash image fun data => (leBytes 8 (xxh64 data 0).toNat).reverse)
  | .md5 => some (treeHash image Md5.digest)
  | .sha1 => some (treeHash image Sha1.digest)
  | .uuid => some uuid
  | .hex bytes => some bytes

/-- The build-id of a content-derived mode from the digests of the blocks. -/
def combineDigests (kind : BuildId) (digests : List (List UInt8)) : Option (List UInt8) :=
  (BlockHasher.new kind).map fun hasher => (digests.foldl BlockHasher.update hasher).finish

/-! ### Incremental hashing -/

/-- The hash of one call. -/
def leaf (kind : BuildId) (data : List UInt8) : List UInt8 :=
  match kind with
  | .fast => (leBytes 8 (xxh64 data 0).toNat).reverse
  | .md5 => Md5.digest data
  | .sha1 => Sha1.digest data
  | .none | .uuid | .hex _ => []

namespace BlockHasher

variable {kind : BuildId} {fresh : BlockHasher}

/-- **Pieces are hashed like their concatenation.** -/
theorem update_fed (h : new kind = some fresh) (x y : List UInt8) :
    (fresh.update x).update y = fresh.update (x ++ y) := by
  cases kind with
  | none | uuid | hex _ => exact nomatch h
  | fast =>
    obtain rfl := Option.some.inj h
    exact congrArg fast (Xxh64.update_fed 0 x y)
  | md5 =>
    obtain rfl := Option.some.inj h
    exact congrArg md5 (Md5.update_fed x y)
  | sha1 =>
    obtain rfl := Option.some.inj h
    exact congrArg sha1 (Sha1.update_fed x y)

theorem update_nil (h : new kind = some fresh) : fresh.update [] = fresh := by
  cases kind with
  | none | uuid | hex _ => exact nomatch h
  | fast | md5 | sha1 =>
    obtain rfl := Option.some.inj h
    rfl

theorem zerosLoop_zero (fuel : ℕ) (hasher : BlockHasher) : zerosLoop fuel hasher 0 = hasher := by
  cases fuel with
  | zero => rfl
  | succ fuel => rw [zerosLoop, if_pos rfl]

theorem zerosLoop_fed (h : new kind = some fresh) (fuel : ℕ) :
    ∀ (n : ℕ) (x : List UInt8), n < fuel * ZEROS →
      zerosLoop fuel (fresh.update x) n = fresh.update (x ++ List.replicate n 0) := by
  induction fuel with
  | zero =>
    intro n x hn
    rw [Nat.zero_mul] at hn
    exact absurd hn (Nat.not_lt_zero n)
  | succ fuel ih =>
    intro n x hn
    rw [zerosLoop]
    split
    · next hzero => rw [hzero, List.replicate_zero, List.append_nil]
    · next hpos =>
      have hsplit : List.replicate n (0 : UInt8) =
          List.replicate (min n ZEROS) 0 ++ List.replicate (n - min n ZEROS) 0 := by
        rw [List.replicate_append_replicate, Nat.add_sub_cancel' (Nat.min_le_left n ZEROS)]
      simp only [update_fed h]
      rcases (by omega : n ≤ ZEROS ∨ ZEROS < n) with hle | hlt
      · rw [Nat.min_eq_left hle, Nat.sub_self, zerosLoop_zero]
      · rw [Nat.succ_mul] at hn
        rw [ih _ _ (by omega), hsplit, List.append_assoc]

/-- **Zeros are fed like zero bytes.** -/
theorem updateZeros_fed (h : new kind = some fresh) (x : List UInt8) (n : ℕ) :
    (fresh.update x).updateZeros n = fresh.update (x ++ List.replicate n 0) := by
  have hlt : n < (n / ZEROS + 1) * ZEROS := by
    have hmod := Nat.mod_lt n (show 0 < ZEROS by decide)
    have hdiv := Nat.div_add_mod n ZEROS
    rw [Nat.succ_mul, Nat.mul_comm]
    omega
  exact zerosLoop_fed h (n / ZEROS + 1) n x hlt

/-- **The incremental hash is the one of one call.** -/
theorem finish_fed (h : new kind = some fresh) {data : List UInt8} (hlen : data.length < 2 ^ 64) :
    (fresh.update data).finish = leaf kind data := by
  cases kind with
  | none | uuid | hex _ => exact nomatch h
  | fast =>
    obtain rfl := Option.some.inj h
    show (leBytes 8 ((Xxh64.new 0).update data).finish.toNat).reverse = _
    rw [Xxh64.finish_fed 0 hlen, leaf]
  | md5 | sha1 =>
    obtain rfl := Option.some.inj h
    rfl

theorem length_leaf_le (kind : BuildId) (data : List UInt8) : (leaf kind data).length ≤ 20 := by
  cases kind with
  | none | uuid | hex _ => exact Nat.zero_le 20
  | fast =>
    rw [leaf, List.length_reverse, length_leBytes]
    decide
  | md5 | sha1 =>
    show List.length (List.flatMap _ _) ≤ 20
    simp

end BlockHasher

theorem foldl_update {kind : BuildId} {fresh : BlockHasher} (h : BlockHasher.new kind = some fresh)
    (digests : List (List UInt8)) (x : List UInt8) :
    digests.foldl BlockHasher.update (fresh.update x) = fresh.update (x ++ digests.flatten) := by
  induction digests generalizing x with
  | nil => rw [List.foldl_nil, List.flatten_nil, List.append_nil]
  | cons d digests ih =>
    rw [List.foldl_cons, BlockHasher.update_fed h, ih, List.flatten_cons, List.append_assoc]

/-- **The digests of the blocks give the build-id of the image.** -/
theorem combineDigests_leaves {kind : BuildId} {fresh : BlockHasher} (uuid : List UInt8)
    (h : BlockHasher.new kind = some fresh) {image : List UInt8} (hlen : image.length < 2 ^ 64) :
    combineDigests kind ((chunks BLOCK_SIZE image).map (leaf kind)) =
      computeBuildId uuid kind image := by
  have hsmall : ((chunks BLOCK_SIZE image).map (leaf kind)).flatten.length < 2 ^ 64 := by
    have hle : (((chunks BLOCK_SIZE image).map (leaf kind)).map List.length).sum ≤
        (chunks BLOCK_SIZE image).length * 20 := by
      have hsum := List.sum_le_card_nsmul
        (((chunks BLOCK_SIZE image).map (leaf kind)).map List.length) 20 fun n hn => ?_
      · rwa [List.length_map, List.length_map] at hsum
      · obtain ⟨d, hd, rfl⟩ := List.mem_map.mp hn
        obtain ⟨data, -, rfl⟩ := List.mem_map.mp hd
        exact BlockHasher.length_leaf_le kind data
    rw [List.length_flatten]
    refine Nat.lt_of_le_of_lt hle ?_
    rw [chunks, List.length_map, List.length_range, BLOCK_SIZE]
    omega
  have hall : computeBuildId uuid kind image = some (treeHash image (leaf kind)) := by
    cases kind with
    | none | uuid | hex _ => exact nomatch h
    | fast | md5 | sha1 => rfl
  rw [combineDigests, h, Option.map_some, hall, treeHash, ← BlockHasher.finish_fed h hsmall]
  rw [← BlockHasher.update_nil h, foldl_update h, BlockHasher.update_fed h, List.nil_append]

open Qld.Lib (checkedAdd saturatingAdd)

/-- Largest copy of the head of a straddling chunk that is kept. -/
def RETAIN_LIMIT : ℕ := 64 * 2 ^ 10

/-- A content-derived build-id to compute while writing, and the field that is zeroed for it. -/
structure HashPlan where
  kind : BuildId
  field : ChunkRange
  deriving DecidableEq, Repr

/-- What a region learned about one block. -/
inductive BlockPart where
  | digest (block : ℕ) (digest : List UInt8)
  /-- The leader's hasher, which has consumed the block up to `at_`. -/
  | opened (block at_ : ℕ) (hasher : BlockHasher)
  | piece (block offset : ℕ) (bytes : List UInt8)
  | missing (block : ℕ)
  deriving DecidableEq, Repr

def BlockPart.block : BlockPart → ℕ
  | .digest block _ | .opened block _ _ | .piece block _ _ | .missing block => block

/-- Block digests computed while writing. -/
structure Precomputed where
  plan : HashPlan
  parts : List BlockPart

/-- Consecutive chunks written from one buffer. -/
structure Region where
  start : ℕ
  stop : ℕ
  first : ℕ
  count : ℕ
  deriving DecidableEq, Repr

/-- `slice.get(start..stop)`. -/
def getSlice {β : Type} (data : List β) (start stop : ℕ) : Option (List β) :=
  if start ≤ stop ∧ stop ≤ data.length then some ((data.drop start).take (stop - start)) else none

/-! ### Regions -/

/-- One chunk of the planning loop; the state is the regions and the key of the chunk before. -/
def addChunk (s : List Region × Option ℕ) (x : ChunkRange × ℕ) : List Region × Option ℕ :=
  -- A zero-sized chunk counts as its offset.
  let last := saturatingAdd x.1.offset (x.1.size - 1)
  let key := last / BLOCK_SIZE
  let stop := saturatingAdd x.1.offset x.1.size
  match s.1.getLast? with
  | some region =>
    if s.2 = some key then
      (s.1.dropLast ++ [{ region with stop := max region.stop stop, count := region.count + 1 }],
        some key)
    else (s.1 ++ [⟨x.1.offset, stop, x.2, 1⟩], some key)
  | none => (s.1 ++ [⟨x.1.offset, stop, x.2, 1⟩], some key)

/-- Groups ranges into regions by the block of each chunk's last byte. -/
def planRegions (ranges : List ChunkRange) : List Region :=
  (ranges.zipIdx.foldl addChunk ([], none)).1

/-- The end of the region with bytes before each region, or zero. -/
def previousEnds : (stop : ℕ) → List Region → List ℕ
  | _, [] => []
  | stop, region :: rest =>
    stop :: previousEnds (if region.stop > region.start then region.stop else stop) rest

/-- The start of the region with bytes after each region, or the length of the file. -/
def nextStarts (len : ℕ) (regions : List Region) : List ℕ :=
  (regions.foldr (fun region s =>
    (s.2 :: s.1, if region.stop > region.start then region.start else s.2)) ([], len)).1

/-- File offsets of a block in an image of `len` bytes. -/
def blockSpan (block len : ℕ) : ℕ × ℕ :=
  let start := min (block * BLOCK_SIZE) U64_MAX
  (start, min (saturatingAdd start BLOCK_SIZE) len)

/-- The blocks whose bytes after the leader's are too large to keep. -/
def missingBlocks (len : ℕ) (regions : List Region) (previous : List ℕ) : Cells Bool :=
  (regions.zip previous).foldl (fun missing x =>
    if x.1.stop ≤ x.1.start then missing
    else
      let block := x.1.start / BLOCK_SIZE
      let span := blockSpan block len
      let head := min span.2 x.1.stop - x.1.start
      if x.2 > span.1 ∧ head > RETAIN_LIMIT then missing.set block true else missing)
    (Cells.const false)

/-! ### Writing -/

/-- Zeroes the part of `field` that falls in `buf`, which starts at file offset `start`. -/
def zeroOverlap (buf : List UInt8) (start : ℕ) (field : ChunkRange) : List UInt8 :=
  match field.stop with
  | none => buf
  | some fieldEnd =>
    let bufEnd := saturatingAdd start buf.length
    let lo := max field.offset start
    let hi := min fieldEnd bufEnd
    if lo ≥ hi then buf
    else if hi - start ≤ buf.length then
      overwrite buf (lo - start) (List.replicate (hi - lo) 0)
    else buf

/-- What a region worker is given. -/
structure RegionContext where
  ranges : List ChunkRange
  len : ℕ
  previousEnd : ℕ
  nextStart : ℕ
  missing : Cells Bool
  plan : Option HashPlan

/-- What a region learns about a block that it has bytes in. -/
def hashBlock (context : RegionContext) (plan : HashPlan) (buf : List UInt8) (start block : ℕ) :
    Option BlockPart :=
  let stop := saturatingAdd start buf.length
  if context.missing.get block then some (.missing block)
  else
    let span := blockSpan block context.len
    let lo := max span.1 start
    let hi := min span.2 stop
    (getSlice buf (lo - start) (hi - start)).bind fun data =>
      -- Another region already has bytes in this block.
      if context.previousEnd > span.1 then some (.piece block lo data)
      else
        (BlockHasher.new plan.kind).map fun hasher =>
          let hasher := (hasher.updateZeros (lo - span.1)).update data
          if hi = span.2 then .digest block hasher.finish
          else
            let until_ := min span.2 context.nextStart
            let hasher := hasher.updateZeros (until_ - hi)
            if until_ = span.2 then .digest block hasher.finish else .opened block until_ hasher

/-- Hashes a region's buffer, which starts at file offset `start`. -/
def hashRegion (context : RegionContext) (plan : HashPlan) (buf : List UInt8) (start : ℕ) :
    List BlockPart :=
  let stop := saturatingAdd start buf.length
  let first := start / BLOCK_SIZE
  let last := (stop - 1) / BLOCK_SIZE
  (List.range' first (last + 1 - first)).filterMap (hashBlock context plan buf start)

/-- Why chunks were not written. -/
inductive WriteError (ε : Type) where
  | internal (error : LayoutError)
  | chunk (error : ε)
  deriving DecidableEq, Repr

/-- The writers of the chunks: each fills the slice that it is given. -/
structure ChunkWriter (ε : Type) where
  write : ℕ → List UInt8 → Except ε (List UInt8)
  length : ∀ index slice bytes, write index slice = .ok bytes → bytes.length = slice.length

/-- Renders the chunks of a region: its buffer, and what it learned about the blocks. -/
def runRegion {ε : Type} (context : RegionContext) (writer : ChunkWriter ε) (region : Region) :
    Except (WriteError ε) (List UInt8 × List BlockPart) :=
  let size := region.stop - region.start
  let chunks := (getSlice context.ranges region.first (region.first + region.count)).getD []
  let local_ := chunks.map fun range => ⟨range.offset - region.start, range.size⟩
  let buf := List.replicate size 0
  match splitChunks size local_ with
  | .error error => .error (.internal error)
  | .ok slices =>
    match slices.zipIdx.mapM fun x =>
        writer.write (region.first + x.2) (List.replicate x.1.2 0) with
    | .error error => .error (.chunk error)
    | .ok contents =>
      let buf := (slices.zip contents).foldl (fun buf x => overwrite buf x.1.1 x.2) buf
      let parts := match context.plan with
        | some plan =>
          if size > 0 then
            hashRegion context plan (zeroOverlap buf region.start plan.field) region.start
          else []
        | none => []
      .ok (buf, parts)

/-- The regions with the contexts of their workers. -/
def workers (len : ℕ) (ranges : List ChunkRange) (plan : Option HashPlan) :
    List (Region × RegionContext) :=
  let regions := planRegions ranges
  let previous := previousEnds 0 regions
  let missing := if plan.isSome then missingBlocks len regions previous else Cells.const false
  (regions.zip (previous.zip (nextStarts len regions))).map fun x =>
    (x.1, ⟨ranges, len, x.2.1, x.2.2, missing, plan⟩)

/-- Runs the writers of the chunks and writes the regions to the file, in the order `order`; the
outcomes are collected in layout order. -/
def writeChunks {ε : Type} (file : List UInt8) (len : ℕ) (ranges : List ChunkRange)
    (writer : ChunkWriter ε) (plan : Option HashPlan) (order : List ℕ) :
    List UInt8 × Except (WriteError ε) (Option Precomputed) :=
  let outcomes := (workers len ranges plan).map fun x => (x.1, runRegion x.2 writer x.1)
  let file := order.foldl (fun file index =>
    match outcomes[index]? with
    | some (region, .ok (buf, _)) => overwrite file region.start buf
    | _ => file) file
  (file, (outcomes.mapM Prod.snd).map fun done =>
    plan.map fun plan => ⟨plan, done.flatMap Prod.snd⟩)

/-! ### The build-id -/

/-- What is known about one block when combining. -/
structure Slot where
  digest : Option (List UInt8)
  opened : Option (ℕ × BlockHasher)
  pieces : List (ℕ × List UInt8)
  missing : Bool

def Slot.empty : Slot := ⟨none, none, [], false⟩

/-- Notes a part of the block. -/
def Slot.add (slot : Slot) : BlockPart → Slot
  | .digest _ digest => { slot with digest := some digest }
  | .opened _ at_ hasher => { slot with opened := some (at_, hasher) }
  | .piece _ offset bytes => { slot with pieces := slot.pieces ++ [(offset, bytes)] }
  | .missing _ => { slot with missing := true }

/-- Why a build-id could not be computed. -/
inductive IoError where
  | unexpectedEof
  | buildIdKind
  deriving DecidableEq, Repr

/-- One kept piece: the zeros before it, and its bytes. -/
def resume (s : ℕ × BlockHasher) (piece : ℕ × List UInt8) : ℕ × BlockHasher :=
  (max (saturatingAdd piece.1 piece.2.length) s.1,
    (s.2.updateZeros (piece.1 - s.1)).update piece.2)

/-- The digest of a block. -/
def blockDigest (file : List UInt8) (len : ℕ) (kind : BuildId) (field : ChunkRange) (block : ℕ)
    (slot : Slot) : Except IoError (List UInt8) :=
  let span := blockSpan block len
  if slot.missing then do
    let buf ← okOrElse (getSlice file span.1 (span.1 + (span.2 - span.1))) .unexpectedEof
    let fresh ← okOrElse (BlockHasher.new kind) .buildIdKind
    .ok (fresh.update (zeroOverlap buf span.1 field)).finish
  else
    match slot.digest with
    | some digest => .ok digest
    | none => do
      let start ← match slot.opened with
        | some opened => .ok opened
        | none => (okOrElse (BlockHasher.new kind) IoError.buildIdKind).map (span.1, ·)
      let sorted := slot.pieces.mergeSort fun a b => a.1 ≤ b.1
      let done := sorted.foldl resume start
      .ok (done.2.updateZeros (span.2 - done.1)).finish

/-- The slots of `blocks` blocks. -/
def slotsOf (precomputed : Option Precomputed) (blocks : ℕ) : Cells Slot :=
  match precomputed with
  | some precomputed => precomputed.parts.foldl (fun slots part =>
      if part.block < blocks then slots.set part.block ((slots.get part.block).add part)
      else slots) (Cells.const .empty)
  | none => Cells.const { Slot.empty with missing := true }

/-- A content-derived build-id of the file with `field` zeroed, from the parts computed while
writing and by reading back every other block. -/
def finishBuildId (file : List UInt8) (len : ℕ) (kind : BuildId) (field : ChunkRange)
    (precomputed : Option Precomputed) : Except IoError (Option (List UInt8)) :=
  match BlockHasher.new kind with
  | none => .ok none
  | some _ => do
    let blocks := (len + (BLOCK_SIZE - 1)) / BLOCK_SIZE
    let slots := slotsOf precomputed blocks
    let digests ← (List.range blocks).mapM fun block =>
      blockDigest file len kind field block (slots.get block)
    .ok (combineDigests kind digests)

end Qld.Output
