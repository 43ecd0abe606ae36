import Mathlib.Data.List.Sort
import Qld.Lib.Except
import Qld.Lib.LittleEndian
import Qld.Macho.Buf

/-!
# Chained fixups

The model of `chained` of `macho/fixups.rs`: every pointer of the image is rewritten in place, as a
rebase or as a bind to an entry of the imports table, and linked to the next one of its page.  The
blob of `LC_DYLD_CHAINED_FIXUPS` records the first fixup of every page, the imports and their names.

* `Layout` — segments in address order, with their contents inside;
* `importsFormat`, `importTable` — the imports table and its format, chosen from all addends;
* `nextOf`, `encode`, `writePointers` — the chains in the image;
* `imageStarts`, `importEntries`, `chained` — the blob.
-/

namespace Qld.Macho

open Qld.Lib

/-! ### Layout -/

/-- An output segment. -/
structure OutSegment where
  name : List UInt8
  vmaddr : ℕ
  vmsize : ℕ
  fileoff : ℕ
  filesize : ℕ
  deriving DecidableEq, Repr

/-- `__PAGEZERO`. -/
def pagezero : List UInt8 := [95, 95, 80, 65, 71, 69, 90, 69, 82, 79]

/-- The segments of the output: in address order, with their contents inside. -/
structure Layout where
  segments : List OutSegment
  ordered : segments.Pairwise fun a b => a.vmaddr + a.vmsize ≤ b.vmaddr
  inside : ∀ s ∈ segments, s.filesize ≤ s.vmsize ∧ s.vmaddr + s.vmsize ≤ U64_MAX ∧
    s.fileoff + s.filesize ≤ U64_MAX ∧ (s.name = pagezero → s.filesize = 0)

namespace Layout

/-- The segment index and offset within it of an address. -/
def segmentOf (layout : Layout) (addr : ℕ) : Option (ℕ × ℕ) :=
  layout.segments.zipIdx.findSome? fun s =>
    if s.1.vmaddr ≤ addr ∧ addr < saturatingAdd s.1.vmaddr s.1.vmsize ∧ s.1.name ≠ pagezero then
      some (s.2, addr - s.1.vmaddr)
    else none

/-- The file offset of an address with contents. -/
def fileOffset (layout : Layout) (addr : ℕ) : Option ℕ :=
  (layout.segments.find? fun s =>
    0 < s.filesize ∧ s.vmaddr ≤ addr ∧ addr < saturatingAdd s.vmaddr s.filesize).map fun s =>
      saturatingAdd s.fileoff (addr - s.vmaddr)

end Layout

/-! ### Fixups -/

/-- The signing schema of an authenticated pointer. -/
@[ext] structure PtrAuth where
  /-- The key: 0 IA, 1 IB, 2 DA, 3 DB. -/
  key : ℕ
  addressDiversity : Bool
  diversity : ℕ
  key_lt : key < 4
  diversity_lt : diversity < 2 ^ 16
  deriving DecidableEq, Repr

inductive FixupKind where
  /-- Slide the pointer: its unslid target address. -/
  | rebase (target : ℕ)
  /-- Bind to an import plus an addend. -/
  | bind (symbol : ℕ) (addend : ℤ)
  deriving DecidableEq, Repr

/-- A target is a `u64`, an addend an `i64`. -/
def FixupKind.Typed : FixupKind → Prop
  | rebase target => target < 2 ^ 64
  | bind _ addend => -2 ^ 63 ≤ addend ∧ addend < 2 ^ 63

instance : (kind : FixupKind) → Decidable kind.Typed
  | .rebase target => inferInstanceAs (Decidable (target < 2 ^ 64))
  | .bind _ addend => inferInstanceAs (Decidable (-2 ^ 63 ≤ addend ∧ addend < 2 ^ 63))

/-- A pointer fixup. -/
structure Fixup where
  address : ℕ
  kind : FixupKind
  auth : Option PtrAuth
  typed : kind.Typed
  deriving DecidableEq, Repr

/-- An imported symbol; its name is a C string. -/
structure Import where
  name : List UInt8
  /-- Library ordinal (1-based), or a negative special ordinal. -/
  ordinal : ℤ
  weak : Bool
  terminated : 0 ∉ name
  deriving DecidableEq, Repr

/-- `DYLD_CHAINED_PTR_64`, `DYLD_CHAINED_PTR_ARM64E` and `DYLD_CHAINED_PTR_ARM64E_USERLAND24`. -/
inductive PointerFormat where
  | ptr64
  | arm64e
  | userland24
  deriving DecidableEq, Repr

def PointerFormat.code : PointerFormat → ℕ
  | ptr64 => 2
  | arm64e => 1
  | userland24 => 12

/-- Chains step in 4-byte units, or in 8-byte units on arm64e. -/
def PointerFormat.stride (format : PointerFormat) : ℕ := if format = .ptr64 then 4 else 8

/-- The bits of `next`: 12, or 11 on arm64e. -/
def PointerFormat.nextBits (format : PointerFormat) : ℕ := if format = .ptr64 then 12 else 11

/-- The bits of an arm64e table index. -/
def PointerFormat.ordinalBits (format : PointerFormat) : ℕ := if format = .arm64e then 16 else 24

/-- `DYLD_CHAINED_IMPORT`, `DYLD_CHAINED_IMPORT_ADDEND` and `DYLD_CHAINED_IMPORT_ADDEND64`. -/
inductive ImportsFormat where
  | plain
  | addend
  | addend64
  deriving DecidableEq, Repr

def ImportsFormat.code : ImportsFormat → ℕ
  | plain => 1
  | addend => 2
  | addend64 => 3

/-- `DYLD_CHAINED_PTR_START_NONE`. -/
def startNone : ℕ := 0xffff

/-! ### The imports table -/

/-- Whether the pointer itself has room for the addend of a bind. -/
def inlineRoom (format : PointerFormat) (fixup : Fixup) (addend : ℤ) : Bool :=
  if format = .ptr64 then 0 ≤ addend ∧ addend ≤ 255
  else if fixup.auth.isSome then addend = 0
  else -2 ^ 18 ≤ addend ∧ addend < 2 ^ 18

/-- The binds that have a property. -/
def anyBind (fixups : List Fixup) (p : Fixup → ℤ → Bool) : Bool :=
  fixups.any fun f =>
    match f.kind with
    | .bind _ addend => p f addend
    | .rebase _ => false

/-- The format of the imports table. -/
def importsFormat (format : PointerFormat) (fixups : List Fixup) : ImportsFormat :=
  if anyBind fixups fun _ addend => addend < -2 ^ 31 || 2 ^ 31 ≤ addend then .addend64
  else if anyBind fixups fun f addend => !inlineRoom format f addend then .addend
  else .plain

/-- The addend that a bind keeps inline, and its key in the table. -/
def inline (format : PointerFormat) (imports : ImportsFormat) (fixup : Fixup) (symbol : ℕ)
    (addend : ℤ) : Option ℤ × (ℕ × ℤ) :=
  if imports = .plain ∨ (format ≠ .ptr64 ∧ inlineRoom format fixup addend) then
    (some addend, (symbol, 0))
  else (none, (symbol, addend))

/-- The key of a bind. -/
def keyOf (format : PointerFormat) (imports : ImportsFormat) (fixup : Fixup) : Option (ℕ × ℤ) :=
  match fixup.kind with
  | .bind symbol addend => some (inline format imports fixup symbol addend).2
  | .rebase _ => none

/-- `dedup`: drops what equals its successor. -/
def dedupRuns {α : Type} [DecidableEq α] : List α → List α
  | [] => []
  | x :: l => if l.head? = some x then dedupRuns l else x :: dedupRuns l

/-- The import and the addend of every entry of the table. -/
def importTable (format : PointerFormat) (fixups : List Fixup) (imports : List Import) :
    List (ℕ × ℤ) :=
  match importsFormat format fixups with
  | .plain => (List.range imports.length).map fun index => (index, 0)
  | _ =>
    dedupRuns ((fixups.filterMap (keyOf format (importsFormat format fixups))).mergeSort
      fun a b => a.1 < b.1 || (a.1 = b.1 && a.2 ≤ b.2))

/-! ### Pointers -/

/-- A fixup with its segment, its offset there, and its place in the file. -/
structure Located where
  segment : ℕ
  offset : ℕ
  file : ℕ
  fixup : Fixup
  deriving DecidableEq, Repr

/-- Finds a fixup in the image. -/
def locate (layout : Layout) (fixup : Fixup) : Except String Located := do
  let place ← okOrElse (layout.segmentOf fixup.address)
    ("fixup at " ++ hex fixup.address ++ " is outside every segment")
  let file ← okOrElse (layout.fileOffset fixup.address)
    ("fixup at " ++ hex fixup.address ++ " has no file contents")
  return ⟨place.1, place.2, file, fixup⟩

/-- Two fixups are in the same page of a segment. -/
def samePage (pageSize : ℕ) (x y : Located) : Bool :=
  y.segment = x.segment && y.offset / pageSize = x.offset / pageSize

/-- The distance to the next fixup, in strides; 0 at the end of a chain. -/
def nextOf (format : PointerFormat) (pageSize : ℕ) (x : Located) (following : List Located) :
    Except String ℕ :=
  match following.head?.filter (samePage pageSize x) with
  | none => .ok 0
  | some y =>
    if (y.offset - x.offset) % format.stride = 0 ∧
        (y.offset - x.offset) / format.stride ≤ 2 ^ format.nextBits - 1 then
      .ok ((y.offset - x.offset) / format.stride)
    else
      .error ("pointers at " ++ hex x.fixup.address ++ " and " ++ hex y.fixup.address ++
        " cannot be chained (misaligned)")

/-- An `i64` as a `u64`. -/
def asU64 (value : ℤ) : ℕ := (value % 2 ^ 64).toNat

/-- The bits of a signing schema. -/
def schemaBits (auth : PtrAuth) : ℕ :=
  auth.diversity <<< 32 ||| auth.addressDiversity.toNat <<< 48 ||| (auth.key &&& 3) <<< 49

def outOfReach (fixup : Fixup) (what : String) : String :=
  "pointer at " ++ hex fixup.address ++ ": " ++ what ++ " out of the reach of arm64e chained fixups"

/-- The table index and the inline addend of a bind. -/
def ordinalOf (format : PointerFormat) (imports : ImportsFormat) (table : List (ℕ × ℤ))
    (fixup : Fixup) (symbol : ℕ) (addend : ℤ) : Except String (ℕ × ℕ) := do
  let key := inline format imports fixup symbol addend
  let ordinal ← okOrElse (table.findIdx? fun k => k = key.2) "bind to an import missing from the table"
  return (ordinal, asU64 (key.1.getD 0))

/-- Encodes a `DYLD_CHAINED_PTR_64` pointer. -/
def encodePtr64 (fixup : Fixup) (next : ℕ) (ordinalOf : ℕ → ℤ → Except String (ℕ × ℕ)) :
    Except String ℕ :=
  match fixup.kind with
  | .rebase target =>
    let high8 := target >>> 56
    let low := target &&& (2 ^ 56 - 1)
    if 2 ^ 36 ≤ low then
      .error ("pointer at " ++ hex fixup.address ++ " targets " ++ hex target ++
        ", beyond the 64 GiB chained fixups reach")
    else .ok (low ||| high8 <<< 36 ||| next <<< 51)
  | .bind symbol addend => do
    let (ordinal, inline) ← ordinalOf symbol addend
    return ordinal ||| (inline &&& (2 ^ 8 - 1)) <<< 24 ||| next <<< 51 ||| 1 <<< 63

/-- Encodes an arm64e pointer. -/
def encodeArm64e (format : PointerFormat) (imageBase : ℕ) (fixup : Fixup) (next : ℕ)
    (ordinalOf : ℕ → ℤ → Except String (ℕ × ℕ)) : Except String ℕ :=
  match fixup.kind, fixup.auth with
  | .rebase target, none =>
    let target := if format = .arm64e then target else (target + 2 ^ 64 - imageBase) % 2 ^ 64
    let high8 := target >>> 56
    let low := target &&& (2 ^ 56 - 1)
    if 2 ^ 43 ≤ low then .error (outOfReach fixup "target")
    else .ok (low ||| high8 <<< 43 ||| next <<< 51)
  | .rebase target, some auth =>
    if imageBase ≤ target ∧ target - imageBase < 2 ^ 32 then
      .ok ((target - imageBase) ||| schemaBits auth ||| next <<< 51 ||| 1 <<< 63)
    else .error (outOfReach fixup "authenticated target")
  | .bind symbol addend, auth => do
    let (ordinal, inline) ← ordinalOf symbol addend
    if 2 ^ format.ordinalBits ≤ ordinal then .error (outOfReach fixup "import ordinal")
    else
      match auth with
      | some auth => return ordinal ||| schemaBits auth ||| next <<< 51 ||| 1 <<< 62 ||| 1 <<< 63
      | none => return ordinal ||| (inline &&& (2 ^ 19 - 1)) <<< 32 ||| next <<< 51 ||| 1 <<< 62

/-- Encodes a pointer.  `chosen` is the format of the blob: arm64e switches to 24-bit ordinals for
a large table. -/
def encode (format chosen : PointerFormat) (imageBase : ℕ) (imports : ImportsFormat)
    (table : List (ℕ × ℤ)) (fixup : Fixup) (next : ℕ) : Except String ℕ :=
  if format = .ptr64 then encodePtr64 fixup next (ordinalOf format imports table fixup)
  else encodeArm64e chosen imageBase fixup next (ordinalOf format imports table fixup)

/-- Writes a number of `width` bytes. -/
def putLe (width : ℕ) (data : List UInt8) (pos value : ℕ) : Option (List UInt8) :=
  if pos + width ≤ data.length then some (overwrite data pos (leBytes width value)) else none

/-- Rewrites the pointers in the image. -/
def writePointers (format chosen : PointerFormat) (imageBase pageSize : ℕ)
    (imports : ImportsFormat) (table : List (ℕ × ℤ)) :
    List Located → List UInt8 → Except String (List UInt8)
  | [], image => .ok image
  | x :: following, image => do
    let next ← nextOf format pageSize x following
    let value ← encode format chosen imageBase imports table x.fixup next
    let image ← okOrElse (putLe 8 image x.file value) "fixup outside the output"
    writePointers format chosen imageBase pageSize imports table following image

/-! ### Page starts -/

/-- Zeros up to a multiple of 8. -/
def pad8 (data : List UInt8) : List UInt8 :=
  data ++ List.replicate ((8 - data.length % 8) % 8) 0

/-- The first fixup of every page, from the pages and the offsets there of all of them. -/
def pageStarts (pageCount : ℕ) (pages : List (ℕ × ℕ)) : List ℕ :=
  pages.foldr (fun x starts => starts.set x.1 (if x.2 < 2 ^ 16 then x.2 else startNone))
    (List.replicate pageCount startNone)

/-- `usize::next_multiple_of(8)`. -/
def nextMultipleOf8 (n : ℕ) : ℕ := (n + 7) / 8 * 8

/-- `dyld_chained_starts_in_segment`. -/
def segmentRecord (chosen : PointerFormat) (imageBase pageSize : ℕ) (segment : OutSegment)
    (pages : List (ℕ × ℕ)) (lastPage : ℕ) : Except String (List UInt8) :=
  let pageCount := lastPage + 1
  let starts := pageStarts pageCount pages
  let size := nextMultipleOf8 (22 + starts.length * 2)
  if 2 ^ 16 ≤ pageCount then .error "a segment with more than 65535 pages of fixups"
  else
    .ok (pad8 (leBytes 4 (if size < 2 ^ 32 then size else 0) ++
      leBytes 2 (if pageSize < 2 ^ 16 then pageSize else 0) ++ leBytes 2 chosen.code ++
      leBytes 8 ((segment.vmaddr + 2 ^ 64 - imageBase) % 2 ^ 64) ++ leBytes 4 0 ++
      leBytes 2 pageCount ++ starts.flatMap (leBytes 2)))

/-- The pages and the offsets there of the fixups of a segment. -/
def pagesOf (pageSize : ℕ) (located : List Located) (index : ℕ) : List (ℕ × ℕ) :=
  (located.filter fun x => x.segment = index).map fun x => (x.offset / pageSize, x.offset % pageSize)

/-- The starts with those of the segments from `index` on. -/
def addStarts (chosen : PointerFormat) (imageBase pageSize : ℕ) (located : List Located) :
    ℕ → List OutSegment → List UInt8 → Except String (List UInt8)
  | _, [], starts => .ok starts
  | index, segment :: segments, starts =>
    match (pagesOf pageSize located index).getLast? with
    | none => addStarts chosen imageBase pageSize located (index + 1) segments starts
    | some last => do
      if 2 ^ 32 ≤ starts.length then .error "chained fixups too large"
      else
        let record ← segmentRecord chosen imageBase pageSize segment
          (pagesOf pageSize located index) last.1
        let starts := (putLe 4 starts (4 + index * 4) starts.length).getD starts
        addStarts chosen imageBase pageSize located (index + 1) segments (starts ++ record)

/-- `dyld_chained_starts_in_image`, and the segments it points to. -/
def imageStarts (layout : Layout) (chosen : PointerFormat) (imageBase pageSize : ℕ)
    (located : List Located) : Except String (List UInt8) :=
  let count := layout.segments.length
  addStarts chosen imageBase pageSize located 0 layout.segments
    (pad8 (leBytes 4 (if count < 2 ^ 32 then count else 0) ++ List.replicate (count * 4) 0))

/-! ### Imports -/

/-- Import names, where they are, and the entries of the table. -/
structure Entries where
  symbols : List UInt8
  offsets : List (List UInt8 × ℕ)
  bytes : List UInt8

/-- The offset of a name, which is added when it is new. -/
def nameOffset (entries : Entries) (name : List UInt8) : Except String (ℕ × Entries) :=
  match entries.offsets.lookup name with
  | some offset => .ok (offset, entries)
  | none =>
    if 2 ^ 32 ≤ entries.symbols.length then .error "chained import names too large"
    else
      .ok (entries.symbols.length,
        ⟨entries.symbols ++ name ++ [0], (name, entries.symbols.length) :: entries.offsets,
          entries.bytes⟩)

/-- The entry of an import. -/
def importEntry (format : ImportsFormat) (entry : Import) (addend : ℤ) (offset : ℕ) :
    Except String (List UInt8) :=
  let weak := entry.weak.toNat
  if format = .addend64 then
    .ok (leBytes 8 ((asU64 entry.ordinal &&& (2 ^ 16 - 1)) ||| weak <<< 16 ||| offset <<< 32) ++
      leBytes 8 (asU64 addend))
  else if 2 ^ 23 ≤ offset then .error "chained import names too large"
  else
    .ok (leBytes 4
        ((asU64 entry.ordinal % 2 ^ 32 &&& (2 ^ 8 - 1)) ||| weak <<< 8 ||| offset <<< 9) ++
      if format = .addend then leBytes 4 (asU64 addend % 2 ^ 32) else [])

/-- The entries of the table. -/
def importEntries (format : ImportsFormat) (imports : List Import) :
    List (ℕ × ℤ) → Entries → Except String Entries
  | [], entries => .ok entries
  | key :: table, entries => do
    let entry ← okOrElse imports[key.1]? "import index out of range"
    let named ← nameOffset entries entry.name
    let bytes ← importEntry format entry key.2 named.1
    importEntries format imports table { named.2 with bytes := named.2.bytes ++ bytes }

/-! ### The blob -/

/-- `dyld_chained_fixups_header`, padded. -/
def headerBytes (importsOffset symbolsOffset count : ℕ) (format : ImportsFormat) : List UInt8 :=
  leBytes 4 0 ++ leBytes 4 32 ++ leBytes 4 importsOffset ++ leBytes 4 symbolsOffset ++
    leBytes 4 count ++ leBytes 4 format.code ++ leBytes 4 0 ++ List.replicate 4 0

/-- Encodes chained fixups: the image with its pointers rewritten, and the blob. -/
def chained (layout : Layout) (imageBase pageSize : ℕ) (format : PointerFormat)
    (fixups : List Fixup) (imports : List Import) (image : List UInt8) :
    Except String (List UInt8 × List UInt8) := do
  let tableFormat := importsFormat format fixups
  let table := importTable format fixups imports
  if 2 ^ 32 < table.length then .error "too many imports"
  else if 2 ^ 24 ≤ table.length then .error "more than 2^24 chained imports"
  else
    let chosen := if format = .arm64e ∧ 0xffff < table.length then .userland24 else format
    let sorted := fixups.mergeSort fun a b => a.address ≤ b.address
    let located ← sorted.mapM (locate layout)
    let image ← writePointers format chosen imageBase pageSize tableFormat table located image
    let starts ← imageStarts layout chosen imageBase pageSize located
    let importsOffset := min (32 + min starts.length (2 ^ 32 - 1)) (2 ^ 32 - 1)
    let entries ← importEntries tableFormat imports table ⟨[], [], []⟩
    let symbolsOffset := 32 + starts.length + entries.bytes.length
    if 2 ^ 32 ≤ symbolsOffset then .error "chained fixups too large"
    else
      return (image, pad8 (headerBytes importsOffset symbolsOffset table.length tableFormat ++
        starts ++ entries.bytes ++ entries.symbols))

end Qld.Macho
