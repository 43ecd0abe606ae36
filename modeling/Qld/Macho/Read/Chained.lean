import Qld.Macho.Fixups

/-!
# Reading chained fixups

The model of `macho/read/chained.rs`, for the little-endian files that the linker writes, and the
rules by which dyld follows the chains.

* `parse`, `ChainedFixups.importAt` — the header and the imports table;
* `pageStart` — the first fixup of a page; `walk` — a chain from there;
* `decode` — what a pointer of a chain says.
-/

namespace Qld.Macho.Read

open Qld.Lib Qld.Macho

/-! ### The imports table -/

/-- `dyld_chained_fixups_header`. -/
structure ChainedFixupsHeader where
  fixupsVersion : ℕ
  startsOffset : ℕ
  importsOffset : ℕ
  symbolsOffset : ℕ
  importsCount : ℕ
  importsFormat : ImportsFormat
  deriving DecidableEq, Repr

/-- The decoded chained fixups blob. -/
structure ChainedFixups where
  header : ChainedFixupsHeader
  data : List UInt8
  deriving DecidableEq, Repr

/-- One imported symbol. -/
structure ChainedImport where
  libOrdinal : ℤ
  weakImport : Bool
  name : List UInt8
  addend : ℤ
  deriving DecidableEq, Repr

/-- The format of a code, when it is known. -/
def formatOf (code : ℕ) : Option ImportsFormat :=
  if code = ImportsFormat.plain.code then some .plain
  else if code = ImportsFormat.addend.code then some .addend
  else if code = ImportsFormat.addend64.code then some .addend64
  else none

/-- The size of an entry. -/
def entrySize : ImportsFormat → ℕ
  | .plain => 4
  | .addend => 8
  | .addend64 => 16

def blobError (what : String) : String := "chained fixups (" ++ what ++ ")"

/-- Parses the header of the blob. -/
def parse (data : List UInt8) : Except String ChainedFixups := do
  let field := fun pos => okOrElse (readLe 4 data pos) (blobError "truncated header")
  let fixupsVersion ← field 0
  let startsOffset ← field 4
  let importsOffset ← field 8
  let symbolsOffset ← field 12
  let importsCount ← field 16
  let importsCode ← field 20
  let symbolsFormat ← field 24
  let format ← okOrElse (formatOf importsCode) (blobError "unknown imports format")
  if symbolsFormat ≠ 0 then .error (blobError "compressed symbol names are not supported")
  else if data.length < importsOffset + importsCount * entrySize format then
    .error (blobError "imports table extends past the blob")
  else if data.length < symbolsOffset then .error (blobError "symbols offset out of range")
  else
    return ⟨⟨fixupsVersion, startsOffset, importsOffset, symbolsOffset, importsCount, format⟩, data⟩

/-- A number of `width` bits, the highest one being the sign. -/
def signed (width value : ℕ) : ℤ := if value < 2 ^ (width - 1) then value else (value : ℤ) - 2 ^ width

def importError (index : ℕ) (what : String) : String :=
  "chained import " ++ toString index ++ " (" ++ what ++ ")"

/-- The ordinal, the weak flag, the name offset and the addend of an entry. -/
def rawImport (c : ChainedFixups) (index : ℕ) : Except String (ℤ × Bool × ℕ × ℤ) :=
  let pos := index * entrySize c.header.importsFormat + c.header.importsOffset
  if 2 ^ 64 ≤ pos then .error (importError index "offset")
  else
    match c.header.importsFormat with
    | .addend64 => do
      let raw ← okOrElse (readLe 8 c.data pos) (importError index "truncated")
      let addend := ((readLe 8 c.data (pos + 8)).map (signed 64)).getD 0
      let ordinal := raw &&& (2 ^ 16 - 1)
      let libOrdinal := if 0xfff0 < ordinal then signed 16 ordinal else (ordinal : ℤ)
      return (libOrdinal, decide (raw >>> 16 &&& 1 ≠ 0), raw >>> 32, addend)
    | format => do
      let raw ← okOrElse (readLe 4 c.data pos) (importError index "truncated")
      let addend := if format = .addend then ((readLe 4 c.data (pos + 4)).map (signed 32)).getD 0 else 0
      -- 8-bit ordinals above 0xF0 are negative special values
      let ordinal := raw &&& (2 ^ 8 - 1)
      let libOrdinal := if 0xf0 < ordinal then signed 8 ordinal else (ordinal : ℤ)
      return (libOrdinal, decide (raw >>> 8 &&& 1 ≠ 0), raw >>> 9, addend)

/-- Decodes an import. -/
def ChainedFixups.importAt (c : ChainedFixups) (index : ℕ) : Except String ChainedImport :=
  if c.header.importsCount ≤ index then .error (importError index "out of range")
  else do
    let (libOrdinal, weakImport, nameOffset, addend) ← rawImport c index
    let pos := c.header.symbolsOffset + nameOffset
    let name ← okOrElse (if pos ≤ c.data.length then cstr (c.data.drop pos) else none)
      (importError index "name offset")
    return ⟨libOrdinal, weakImport, name, addend⟩

/-! ### The rules of dyld -/

/-- Where the starts of a segment are in the blob, if it has fixups. -/
def segmentStarts (c : ChainedFixups) (segment : ℕ) : Option ℕ := do
  let count ← readLe 4 c.data c.header.startsOffset
  if count ≤ segment then none
  else
    let offset ← readLe 4 c.data (c.header.startsOffset + 4 + segment * 4)
    if offset = 0 then none else some (c.header.startsOffset + offset)

/-- What the starts of a segment say: the page size, the pointer format, the segment's offset from
the image base and the number of pages. -/
structure SegmentStarts where
  pageSize : ℕ
  format : ℕ
  segmentOffset : ℕ
  pageCount : ℕ
  deriving DecidableEq, Repr

def readStarts (c : ChainedFixups) (pos : ℕ) : Option SegmentStarts := do
  let pageSize ← readLe 2 c.data (pos + 4)
  let format ← readLe 2 c.data (pos + 6)
  let segmentOffset ← readLe 8 c.data (pos + 8)
  let pageCount ← readLe 2 c.data (pos + 20)
  return ⟨pageSize, format, segmentOffset, pageCount⟩

/-- The offset in its page of the first fixup of a page of a segment. -/
def pageStart (c : ChainedFixups) (segment page : ℕ) : Option ℕ := do
  let pos ← segmentStarts c segment
  let starts ← readStarts c pos
  if starts.pageCount ≤ page then none
  else
    let start ← readLe 2 c.data (pos + 22 + page * 2)
    if start = startNone then none else some start

/-- The `next` field of a pointer. -/
def nextField (format : PointerFormat) (raw : ℕ) : ℕ := bits raw 51 format.nextBits

/-- Follows a chain from a place in the image: the places of its pointers.  `none` if the chain
leaves the image, or has more than `fuel` pointers. -/
def walk (format : PointerFormat) (image : List UInt8) : ℕ → ℕ → Option (List ℕ)
  | 0, _ => none
  | fuel + 1, pos => do
    let raw ← readLe 8 image pos
    if nextField format raw = 0 then return [pos]
    else
      let rest ← walk format image fuel (pos + nextField format raw * format.stride)
      return pos :: rest

/-- What a pointer of a chain says. -/
inductive Pointer where
  | rebase (target : ℕ) (auth : Option PtrAuth)
  | bind (ordinal : ℕ) (addend : ℤ) (auth : Option PtrAuth)
  deriving DecidableEq, Repr

/-- The signing schema of an authenticated pointer. -/
def schemaOf (raw : ℕ) : PtrAuth where
  key := bits raw 49 2
  addressDiversity := bits raw 48 1 = 1
  diversity := bits raw 32 16
  key_lt := Nat.mod_lt _ (by decide)
  diversity_lt := Nat.mod_lt _ (by decide)

/-- What a `DYLD_CHAINED_PTR_64` pointer says. -/
def decodePtr64 (raw : ℕ) : Pointer :=
  if bits raw 63 1 = 1 then .bind (bits raw 0 24) (bits raw 24 8) none
  else .rebase (bits raw 0 36 + bits raw 36 8 * 2 ^ 56) none

/-- What an arm64e pointer says. -/
def decodeArm64e (format : PointerFormat) (imageBase raw : ℕ) : Pointer :=
  if bits raw 63 1 = 1 then
    if bits raw 62 1 = 1 then .bind (bits raw 0 format.ordinalBits) 0 (some (schemaOf raw))
    else .rebase ((bits raw 0 32 + imageBase) % 2 ^ 64) (some (schemaOf raw))
  else if bits raw 62 1 = 1 then
    .bind (bits raw 0 format.ordinalBits) (signed 19 (bits raw 32 19)) none
  else
    let target := bits raw 0 43 + bits raw 43 8 * 2 ^ 56
    .rebase (if format = .arm64e then target else (target + imageBase) % 2 ^ 64) none

/-- What a pointer says. -/
def decode (format : PointerFormat) (imageBase raw : ℕ) : Pointer :=
  if format = .ptr64 then decodePtr64 raw else decodeArm64e format imageBase raw

end Qld.Macho.Read
