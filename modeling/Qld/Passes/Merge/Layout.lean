import Qld.Lib.Segments
import Qld.Lib.Word64
import Qld.Passes.BitSet
import Qld.Passes.Csr
import Qld.Passes.Merge.Split

/-!
# Deduplicating and laying out split sections

The model of `passes/merge.rs`, phase 2 of section merging.

* `layOut` — the checks, `deduplicate`, `layoutGroup` for every group, and the offsets of the
  pieces that are not leaders;
* `deduplicate` — live pieces bucketed by shard in runs of sections, then one table a shard;
* `layoutGroupInRuns` and `layoutGroup` — the two layouts of a group;
* `MergedSections` with `pieceOutputOffset`, `outputOffset` and `writeGroup`.

Arrays that the passes fill are `Cells`.  `writePieces` takes the function that
decides where a list of pieces is cut as an argument; `halves` is that of the source.
-/

namespace Qld.Passes.Merge

open Qld.Lib

/-- Number of dedup table shards. -/
def SHARDS : ℕ := 256

/-- Pieces per run of input sections bucketed together. -/
def PIECES_PER_RUN : ℕ := 2 ^ 16

/-- Output offset of a piece that is not live. -/
def DEAD_OFFSET : ℕ := 2 ^ 64 - 1

/-- Leader of a piece that is not live. -/
def DEAD_LEADER : ℕ := 2 ^ 32 - 1

/-- One output merged section: the sections in it share this description. -/
structure MergeGroup where
  kind : MergeKind
  alignment : ℕ
  tailMerge : Bool
  deriving DecidableEq, Repr

/-- A piece that owns storage in a group's output. -/
structure OutputPiece where
  outputOffset : ℕ
  section_ : ℕ
  inputOffset : ℕ
  len : ℕ
  deriving DecidableEq, Repr

/-- The layout of one output merged section. -/
structure MergedGroup where
  size : ℕ
  alignment : ℕ
  pieces : List OutputPiece
  deriving DecidableEq, Repr

/-- One live split section. -/
structure MergeInput (hashPiece : List UInt8 → UInt64) where
  group : ℕ
  split : SplitSection hashPiece

/-- A piece that is the first occurrence of its contents, during layout. -/
structure Leader where
  piece : ℕ
  section_ : ℕ
  inputOffset : ℕ
  bytes : List UInt8
  deriving DecidableEq, Repr

/-- A dedup table entry: one distinct piece content. -/
structure Unique where
  hash : UInt64
  group : ℕ
  leader : ℕ
  bytes : List UInt8
  deriving DecidableEq, Repr

/-- The next multiple of `alignment`, a power of two; the mask is complemented in 64 bits. -/
def alignTo (value alignment : ℕ) : Option ℕ :=
  let mask := alignment - 1
  (checkedAdd value mask).map fun v => v &&& (2 ^ 64 - 1 - mask)

def shardOf (hash : UInt64) : ℕ := (hash >>> 32).toNat &&& (SHARDS - 1)

/-- Mixes the group number into a piece hash. -/
def groupHash (hash : UInt64) (group : ℕ) : UInt64 :=
  hash ^^^ UInt64.ofNat group * 0x9e3779b97f4a7c15

/-! ### Checks -/

def checkGroups (groups : List MergeGroup) : Except InputError Unit :=
  match groups.zipIdx.find? fun g => !g.1.kind.valid || !decide g.1.alignment.isPowerOfTwo with
  | some (_, index) => .error (.outOfRange "merge group kind or alignment" index groups.length)
  | none => .ok ()

/-- Cuts consecutive sections into runs of about `PIECES_PER_RUN` pieces: `current` is the run
being filled and `pieces` the number of its pieces. -/
def cutRuns (weight : ℕ → ℕ) : List ℕ → (current : List ℕ) → (pieces : ℕ) → List (List ℕ)
  | [], [], _ => []
  | [], current, _ => [current]
  | s :: rest, current, pieces =>
    if pieces + weight s ≥ PIECES_PER_RUN then (current ++ [s]) :: cutRuns weight rest [] 0
    else cutRuns weight rest (current ++ [s]) (pieces + weight s)

section Inputs

variable {hashPiece : List UInt8 → UInt64}

/-- The piece numbers at the ends of the sections, after checking every section against its
group. -/
def checkInputs (groups : List MergeGroup) :
    (index total : ℕ) → List (MergeInput hashPiece) → Except InputError (List ℕ)
  | _, _, [] => .ok []
  | index, total, input :: rest =>
    match groups[input.group]? with
    | none => .error (.outOfRange "merge group" input.group groups.length)
    | some group =>
      if input.split.kind ≠ group.kind ∨ input.split.alignment > group.alignment then
        .error (.mismatch "merge section kind or alignment and its group's" index)
      else if total + input.split.numPieces ≥ 2 ^ 64 then .error (.tooLarge "merge piece count")
      else do
        let bases ← checkInputs groups (index + 1) (total + input.split.numPieces) rest
        .ok ((total + input.split.numPieces) :: bases)

variable (inputs : List (MergeInput hashPiece)) (pieceBase : List ℕ)

/-- Global number of the first piece of a section. -/
def baseOf (s : ℕ) : ℕ := pieceBase[s]?.getD 0

/-- The hash of a piece, with the group mixed in. -/
def pieceHash (x : ℕ × ℕ) : UInt64 :=
  match inputs[x.1]? with
  | some input => groupHash (input.split.hashes[x.2]?.getD 0) input.group
  | none => 0

def pieceBytes (x : ℕ × ℕ) : List UInt8 :=
  match inputs[x.1]? with
  | some input => input.split.bytesOf x.2
  | none => []

def pieceGroup (x : ℕ × ℕ) : ℕ :=
  match inputs[x.1]? with
  | some input => input.group
  | none => 0

/-- Number of pieces of a section. -/
def numPiecesOf (s : ℕ) : ℕ := (inputs[s]?.map fun input => input.split.numPieces).getD 0

/-! ### Deduplication -/

variable (live : Option BitSet)

/-- Every live piece of a section. -/
def livePieces (s : ℕ) : List (ℕ × ℕ) :=
  ((List.range (numPiecesOf inputs s)).filter fun local_ =>
    live.all fun live => live.get (baseOf pieceBase s + local_)).map fun local_ => (s, local_)

/-- The live pieces of a run of consecutive input sections, bucketed by shard. -/
structure Bucketed where
  starts : Cells ℕ
  entries : Cells (ℕ × ℕ)

def Bucketed.bucket (b : Bucketed) (shard : ℕ) : List (ℕ × ℕ) :=
  (List.range' (b.starts.get shard) (b.starts.get (shard + 1) - b.starts.get shard)).map
    b.entries.get

/-- Buckets the live pieces of a run by shard. -/
def bucketRun (run : List ℕ) : Bucketed :=
  let pieces := run.flatMap (livePieces inputs pieceBase live)
  let key := fun x => shardOf (pieceHash inputs x)
  let starts := bucketStarts SHARDS (pieces.map key)
  ⟨starts, place key pieces starts (Cells.const (0, 0))⟩

/-- Global number of a piece. -/
def pieceIndex (x : ℕ × ℕ) : ℕ := baseOf pieceBase x.1 + x.2

/-- One piece of a shard: its leader is the first one of its contents. -/
def insertPiece (s : List Unique × Cells ℕ) (x : ℕ × ℕ) : List Unique × Cells ℕ :=
  let hash := pieceHash inputs x
  let group := pieceGroup inputs x
  let bytes := pieceBytes inputs x
  let index := pieceIndex pieceBase x
  match s.1.find? fun u => u.hash == hash && u.group == group && u.bytes == bytes with
  | some u => (s.1, s.2.set index u.leader)
  | none => (⟨hash, group, index, bytes⟩ :: s.1, s.2.set index index)

/-- Fills one shard's table, walking its buckets in run order. -/
def fillShard (buckets : List Bucketed) (leader : Cells ℕ) (shard : ℕ) : Cells ℕ :=
  ((buckets.flatMap fun b => b.bucket shard).foldl (insertPiece inputs pieceBase) ([], leader)).2

/-- The leader of every piece, for a cut of the sections into runs. -/
def deduplicateRuns (runs : List (List ℕ)) : Cells ℕ :=
  let buckets := runs.map (bucketRun inputs pieceBase live)
  (List.range SHARDS).foldl (fillShard inputs pieceBase buckets) (Cells.const DEAD_LEADER)

/-- Finds the leader of every live piece: the lowest live piece number with the same contents
in the same group. -/
def deduplicate : Cells ℕ :=
  deduplicateRuns inputs pieceBase live
    (cutRuns (numPiecesOf inputs) (List.range inputs.length) [] 0)

/-! ### Layout -/

variable (leader : Cells ℕ)

/-- The leaders of a section, in order. -/
def sectionLeaders (s : ℕ) : List Leader :=
  ((List.range (numPiecesOf inputs s)).filter fun local_ =>
    leader.get (baseOf pieceBase s + local_) = baseOf pieceBase s + local_).map fun local_ =>
      { piece := baseOf pieceBase s + local_
        section_ := s
        inputOffset := ((inputs[s]?.map fun input => input.split.bounds local_).getD (0, 0)).1
        bytes := pieceBytes inputs (s, local_) }

end Inputs

/-- Places items one after the other, each at the next multiple of the alignment: the items
with their offsets, and the end of the last one. -/
def placeAll {α : Type} (alignment : ℕ) (len : α → ℕ) : List α → ℕ → Option (List (α × ℕ) × ℕ)
  | [], size => some ([], size)
  | x :: rest, size => do
    let start ← alignTo size alignment
    let size ← checkedAdd start (len x)
    let (placed, size) ← placeAll alignment len rest size
    some ((x, start) :: placed, size)

def Leader.len (lead : Leader) : ℕ := lead.bytes.length

/-- The output piece of a leader. -/
def outputPiece (lead : Leader) (offset : ℕ) : OutputPiece :=
  { outputOffset := offset
    section_ := lead.section_
    inputOffset := lead.inputOffset
    len := lead.len }

/-- The storage-owning pieces of a run of member sections, with offsets from the run's start,
and the end of the last one. -/
abbrev RunLayout := List (Leader × ℕ) × ℕ

/-- The aligned start of each run, and the end of the last one that is not empty. -/
def runBases (alignment : ℕ) : List RunLayout → (next size : ℕ) → Option (List ℕ × ℕ)
  | [], _, size => some ([], size)
  | run :: rest, next, size =>
    if run.1.isEmpty then do
      let (bases, size) ← runBases alignment rest next size
      some (next :: bases, size)
    else do
      let size ← checkedAdd next run.2
      let next' ← alignTo size alignment
      let (bases, size) ← runBases alignment rest next' size
      some (next :: bases, size)

/-- Stores the offsets of placed leaders. -/
def storeOffsets (placed : List (Leader × ℕ)) (outOffset : Cells ℕ) : Cells ℕ :=
  placed.foldl (fun out x => out.set x.1.piece x.2) outOffset

def tooLarge : InputError := .tooLarge "merged section size"

/-- Lays out a group without tail merging, for a cut of its leaders into runs: each run from
offset 0, then shifted by its base. -/
def layoutRuns (group : MergeGroup) (runs : List (List Leader)) (outOffset : Cells ℕ) :
    Except InputError (MergedGroup × Cells ℕ) :=
  match runs.mapM fun run => placeAll group.alignment Leader.len run 0 with
  | none => .error tooLarge
  | some layouts =>
    match runBases group.alignment layouts 0 0 with
    | none => .error tooLarge
    | some (bases, size) =>
      let placed := (layouts.zip bases).flatMap fun (run, base) =>
        run.1.map fun (lead, offset) => (lead, offset + base)
      .ok ({ size := size
             alignment := group.alignment
             pieces := placed.map fun (lead, offset) => outputPiece lead offset },
        storeOffsets placed outOffset)

section Group

variable {hashPiece : List UInt8 → UInt64} (inputs : List (MergeInput hashPiece))
  (pieceBase : List ℕ) (leader : Cells ℕ)

/-- Lays out a group without tail merging. -/
def layoutGroupInRuns (group : MergeGroup) (members : List ℕ) (outOffset : Cells ℕ) :
    Except InputError (MergedGroup × Cells ℕ) :=
  let runs := cutRuns (fun s => baseOf pieceBase (s + 1) - baseOf pieceBase s) members [] 0
  layoutRuns group (runs.map fun run => run.flatMap (sectionLeaders inputs pieceBase leader))
    outOffset

end Group

/-! ### Tail merging -/

section TailMerge

variable (leaders : List Leader)

def bytesAt (position : ℕ) : List UInt8 := (leaders[position]?.map Leader.bytes).getD []

/-- The order of the positions: by reversed contents, descending, then by position. -/
def tailOrder (a b : ℕ) : Prop :=
  ((compare (bytesAt leaders b).reverse (bytesAt leaders a).reverse).then (compare a b)).isLE

instance : DecidableRel (tailOrder leaders) := fun _ _ =>
  inferInstanceAs (Decidable (Ordering.isLE _ = true))

/-- One position of the tail merging loop; the state is the last owner and the links. -/
def linkPosition (alignment : ℕ) (s : Option ℕ × Cells (Option (ℕ × ℕ))) (position : ℕ) :
    Option ℕ × Cells (Option (ℕ × ℕ)) :=
  let bytes := bytesAt leaders position
  match s.1 with
  | some owner =>
    let ownerBytes := bytesAt leaders owner
    let delta := ownerBytes.length - bytes.length
    if bytes.isSuffixOf ownerBytes && delta &&& (alignment - 1) == 0 then
      (some owner, s.2.set position (some (owner, delta)))
    else (some position, s.2)
  | none => (some position, s.2)

/-- The links of the positions that share storage: the owner's position and the distance from
the owner's start.  An owner has no link; in the source it is linked to itself. -/
def links (alignment : ℕ) : Cells (Option (ℕ × ℕ)) :=
  let order := (List.range leaders.length).insertionSort (tailOrder leaders)
  (order.foldl (linkPosition leaders alignment) (none, Cells.const none)).2

/-- The offset of a position: its own start, or the distance from its owner's. -/
def offsetAt (link : Cells (Option (ℕ × ℕ))) (starts : Cells ℕ) (position : ℕ) : ℕ :=
  match link.get position with
  | some (owner, delta) => starts.get owner + delta
  | none => starts.get position

/-- Places the owners and gives every position its offset. -/
def layoutLinked (group : MergeGroup) (link : Cells (Option (ℕ × ℕ))) (outOffset : Cells ℕ) :
    Except InputError (MergedGroup × Cells ℕ) :=
  let owners := (List.range leaders.length).filter fun position => (link.get position).isNone
  match placeAll group.alignment (fun position => (bytesAt leaders position).length) owners 0 with
  | none => .error tooLarge
  | some (placed, size) =>
    let starts := placed.foldl (fun offsets x => offsets.set x.1 x.2) (Cells.const 0)
    .ok ({ size := size
           alignment := group.alignment
           pieces := placed.filterMap fun (position, start) =>
             leaders[position]?.map fun lead => outputPiece lead start },
      storeOffsets (leaders.zipIdx.map fun (lead, position) =>
        (lead, offsetAt link starts position)) outOffset)

end TailMerge

section LayOut

variable {hashPiece : List UInt8 → UInt64} (inputs : List (MergeInput hashPiece))
  (pieceBase : List ℕ) (leader : Cells ℕ)

/-- Lays out one group. -/
def layoutGroup (group : MergeGroup) (members : List ℕ) (outOffset : Cells ℕ) :
    Except InputError (MergedGroup × Cells ℕ) :=
  match group.tailMerge, group.kind with
  | true, .strings _ =>
    let leaders := members.flatMap (sectionLeaders inputs pieceBase leader)
    layoutLinked leaders group (links leaders group.alignment) outOffset
  | _, _ => layoutGroupInRuns inputs pieceBase leader group members outOffset

/-- Lays out the groups, each with its row of member sections. -/
def layoutGroups (members : Csr ℕ) : List (MergeGroup × ℕ) → Cells ℕ →
    Except InputError (List MergedGroup × Cells ℕ)
  | [], outOffset => .ok ([], outOffset)
  | (group, index) :: rest, outOffset => do
    let (merged, outOffset) ← layoutGroup inputs pieceBase leader group (members.row index) outOffset
    let (groups, outOffset) ← layoutGroups members rest outOffset
    .ok (merged :: groups, outOffset)

/-- Every live piece that is not a leader takes its leader's offset. -/
def followLeaders (total : ℕ) (outOffset : Cells ℕ) : Cells ℕ :=
  (List.range total).foldl (fun out index =>
    if leader.get index ≠ DEAD_LEADER ∧ leader.get index ≠ index then
      out.set index (out.get (leader.get index))
    else out) outOffset

end LayOut

/-- The result of `mergeSplitSections`. -/
structure MergedSections (hashPiece : List UInt8 → UInt64) where
  splits : List (SplitSection hashPiece)
  sectionGroups : List ℕ
  groups : List MergedGroup
  pieceBase : List ℕ
  outputOffset : List ℕ

section Merged

variable {hashPiece : List UInt8 → UInt64}

/-- The liveness bitmap, if given, has one bit for every piece. -/
def checkLive (live : Option BitSet) (total : ℕ) : Except InputError Unit :=
  match live with
  | some live =>
    if live.len ≠ total then
      .error (.mismatch "merge piece liveness bitmap length and piece count" live.len)
    else .ok ()
  | none => .ok ()

/-- Phase 2 proper: validates, deduplicates and lays out. -/
def layOut (groups : List MergeGroup) (inputs : List (MergeInput hashPiece))
    (live : Option BitSet) : Except InputError (List MergedGroup × List ℕ × List ℕ) := do
  checkGroups groups
  if inputs.length ≥ 2 ^ 32 then throw (.tooLarge "merge section count")
  let bases ← checkInputs groups 0 0 inputs
  let pieceBase := 0 :: bases
  let total := baseOf pieceBase inputs.length
  if total ≥ DEAD_LEADER then throw (.tooLarge "merge piece count")
  checkLive live total
  let leader := deduplicate inputs pieceBase live
  let members ← CsrBuilder.build
    ⟨groups.length, inputs.zipIdx.map fun (input, index) => (input.group, index)⟩
  let (merged, outOffset) ← layoutGroups inputs pieceBase leader members groups.zipIdx
    (Cells.const DEAD_OFFSET)
  let outOffset := followLeaders leader total outOffset
  return (merged, pieceBase, outOffset.toList total)

/-- Deduplicates and lays out split mergeable sections. -/
def mergeSplitSections (groups : List MergeGroup) (inputs : List (MergeInput hashPiece))
    (live : Option BitSet) : Except InputError (MergedSections hashPiece) := do
  let (merged, pieceBase, outputOffset) ← layOut groups inputs live
  return { splits := inputs.map MergeInput.split
           sectionGroups := inputs.map MergeInput.group
           groups := merged
           pieceBase := pieceBase
           outputOffset := outputOffset }

namespace MergedSections

variable (m : MergedSections hashPiece)

/-- The merged layout of a group. -/
def group (g : ℕ) : Option MergedGroup := m.groups[g]?

/-- Finds the piece containing `offset` in a section; `key` and `cell` are the section's
address and the contents of the per-thread cell. -/
def pieceAt (key : ℕ) (cell : ℕ × ℕ) (s offset : ℕ) : Option PieceRef := do
  let split ← m.splits[s]?
  split.pieceAt key cell offset

/-- Output offset of the start of `piece` of section `s`. -/
def pieceOutputOffset (s piece : ℕ) : Option ℕ := do
  let base ← m.pieceBase[s]?
  let stop ← m.pieceBase[s + 1]?
  if base + piece < stop then
    (m.outputOffset[base + piece]?).filter fun offset => offset != DEAD_OFFSET
  else none

/-- Maps `offset` in input section `s` to an offset in the merged output section. -/
def outputOffsetAt (key : ℕ) (cell : ℕ × ℕ) (s offset : ℕ) : Option ℕ := do
  let found ← m.pieceAt key cell s offset
  let start ← m.pieceOutputOffset s found.piece
  checkedAdd start found.addend

end MergedSections

/-! ### Writing -/

section Write

variable (splits : List (SplitSection hashPiece))

/-- The bytes of an output piece; empty if its range does not exist. -/
def OutputPiece.bytes (piece : OutputPiece) : List UInt8 :=
  ((splits[piece.section_]?).bind fun split =>
    slice split.data piece.inputOffset (piece.inputOffset + piece.len)).getD []

/-- Fills `out[start..stop]` with zeros. -/
def fillZero (out : List UInt8) (start stop : ℕ) : List UInt8 :=
  overwrite out start (List.replicate (stop - start) 0)

/-- Writes pieces one after the other, and zeros before, between and after them. -/
def writeLeaf (base : ℕ) : List OutputPiece → (cursor : ℕ) → List UInt8 → List UInt8
  | [], cursor, out => fillZero out cursor out.length
  | piece :: rest, cursor, out =>
    let bytes := piece.bytes splits
    let start := piece.outputOffset - base
    if start + bytes.length ≤ out.length then
      let out := overwrite out start bytes
      let out := fillZero out (min cursor start) start
      writeLeaf base rest (start + bytes.length) out
    else fillZero out cursor out.length

/-- Where `write_pieces` cuts a list of pieces in two. -/
def halves (n : ℕ) : Option ℕ := if n > MIN_PIECES_PER_TASK then some (n / 2) else none

/-- Writes `pieces` into `out`, which starts at output offset `base`.  `cut` says whether a
list of pieces is cut, and where. -/
def writePieces (cut : ℕ → Option ℕ) (pieces : List OutputPiece) (base : ℕ) (out : List UInt8) :
    List UInt8 :=
  match cut pieces.length with
  | some mid =>
    if h : 0 < mid ∧ mid < pieces.length then
      let split := (pieces.get ⟨mid, h.2⟩).outputOffset
      let at_ := min (split - base) out.length
      writePieces cut (pieces.take mid) base (out.take at_) ++
        writePieces cut (pieces.drop mid) split (out.drop at_)
    else writeLeaf splits base pieces 0 out
  | none => writeLeaf splits base pieces 0 out
termination_by pieces.length
decreasing_by
  · simp only [List.length_take]
    omega
  · simp only [List.length_drop]
    omega

/-- Writes the merged contents of a group into `out`. -/
def MergedSections.writeGroup (cut : ℕ → Option ℕ) (m : MergedSections hashPiece) (g : ℕ)
    (out : List UInt8) : Except InputError (List UInt8) :=
  match m.groups[g]? with
  | none => .error (.outOfRange "merge group" g m.groups.length)
  | some merged =>
    if out.length < merged.size then
      .error (.outOfRange "merged section size" merged.size out.length)
    else .ok (writePieces m.splits cut merged.pieces 0 out)

end Write

end Merged

end Qld.Passes.Merge
