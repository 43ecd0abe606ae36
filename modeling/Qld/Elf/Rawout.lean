import Mathlib.Data.List.MinMax
import Mathlib.Data.UInt
import Qld.Elf.Bytes
import Qld.Elf.Consts
import Qld.Elf.Word
import Qld.Lib.Except
import Qld.Lib.Segments

/-!
# Raw image outputs

The model of `elf/rawout.rs`: `--oformat binary`, `ihex` and `srec`.  The rendered image is cut into
pieces at their load addresses, and the pieces are written in one of three formats.  A `usize` is a
`u64`; what fails for want of memory is not modelled.

* `pieces` — every loadable section cut at its members, fills and data;
* `binary`, `ihex`, `srec` — the three writers; `render` — the choice among them;
* `ihexRebase`, `ihexChunk` — one round of the loop of `ihex`: the records that move the base, and
  the data record.
-/

namespace Qld.Elf

open Qld.Lib

/-! ### Sections and pieces -/

/-- What a trailing, linker-generated, non-allocated section holds. -/
inductive Trailer where
  | none
  | symtab
  | strtab
  | shstrtab
  | rela (index : ℕ)
  | generated
  deriving DecidableEq, Repr

/-- A member of an output section: its offset and size. -/
structure Placed where
  offset : ℕ
  size : ℕ
  deriving DecidableEq, Repr

/-- An output section after layout, as far as the raw formats read it. -/
structure OutSection where
  trailer : Trailer
  shType : ℕ
  flags : ℕ
  offset : ℕ
  size : ℕ
  members : List Placed
  lma : ℕ
  fills : List (ℕ × ℕ × ℕ)
  data : List (ℕ × List UInt8)
  deriving DecidableEq, Repr

namespace OutSection

/-- Whether the section is allocated. -/
def isAlloc (s : OutSection) : Bool := s.flags &&& SHF_ALLOC ≠ 0

/-- Whether the section occupies file space. -/
def hasFileBytes (s : OutSection) : Bool := s.shType ≠ SHT_NOBITS

/-- Whether `pieces` cuts the section. -/
def loadable (s : OutSection) : Bool :=
  s.trailer = .none && s.isAlloc && s.hasFileBytes && s.size ≠ 0

/-- Where the section is to be cut: its members, fills and data, sorted. -/
def bounds (s : OutSection) : List (ℕ × ℕ) :=
  (((s.members.filter fun placed => 0 < placed.size).map fun placed =>
      (placed.offset, placed.size)) ++
    (s.fills.map fun fill => (fill.1, fill.2.1)) ++
    s.data.map fun data => (data.1, data.2.length)).mergeSort
      fun a b => a.1 < b.1 || (a.1 = b.1 && a.2 ≤ b.2)

end OutSection

/-- Why a raw output fails. -/
inductive RawError where
  | internal (message : String)
  | limit (message : String)
  | option (message : String)
  deriving DecidableEq, Repr

/-- One piece of loadable contents. -/
structure Piece where
  lma : ℕ
  data : List UInt8
  deriving DecidableEq, Repr

/-- The runs from `cursor` to `size`: the bounds, what overlaps cut off, and the gaps. -/
def runs (size : ℕ) : ℕ → List (ℕ × ℕ) → List (ℕ × ℕ)
  | cursor, [] => if cursor < size then [(cursor, wrappingSub size cursor)] else []
  | cursor, (offset, len) :: bounds =>
    let stop := saturatingAdd offset len
    if offset < cursor then
      -- overlapping pieces: keep the part past the cursor
      if cursor < stop then (cursor, wrappingSub stop cursor) :: runs size stop bounds
      else runs size cursor bounds
    else
      (if cursor < offset then [(cursor, wrappingSub offset cursor)] else []) ++
        (offset, len) :: runs size stop bounds

/-- The piece of a run. -/
def cutRun (s : OutSection) (image : List UInt8) (run : ℕ × ℕ) : Except RawError Piece := do
  let data ← okOrElse
    ((checkedAdd s.offset run.1).bind fun start =>
      (checkedAdd start run.2).bind (getRange image start))
    (.internal "raw output piece outside the image")
  return ⟨wrappingAdd s.lma run.1, data⟩

/-- The pieces of a section. -/
def sectionPieces (image : List UInt8) (s : OutSection) : Except RawError (List Piece) :=
  ((runs s.size 0 s.bounds).filter fun run => run.2 ≠ 0).mapM (cutRun s image)

/-- Cuts a rendered image into loadable pieces, in section and offset order. -/
def pieces (sections : List OutSection) (image : List UInt8) : Except RawError (List Piece) :=
  ((sections.filter OutSection.loadable).mapM (sectionPieces image)).map List.flatten

/-- Inserts a piece into a list sorted by address: after the tail when not lower, else before the
first entry at or above it. -/
def insertSorted (list : List Piece) (piece : Piece) : List Piece :=
  match list.getLast? with
  | none => list ++ [piece]
  | some tail =>
    if tail.lma ≤ piece.lma then list ++ [piece]
    else
      list.takeWhile (fun p => p.lma < piece.lma) ++
        piece :: list.dropWhile (fun p => p.lma < piece.lma)

def sorted (pieces : List Piece) : List Piece := pieces.foldl insertSorted []

/-! ### Binary -/

/-- Where a piece ends in a binary image that starts at `low`. -/
def binaryEnd (low : ℕ) (piece : Piece) : Except RawError ℕ :=
  okOrElse (checkedAdd (wrappingSub piece.lma low) piece.data.length)
    (.limit "binary image larger than the address space")

/-- Copies a piece into the image. -/
def binaryCopy (low : ℕ) (image : List UInt8) (piece : Piece) : Except RawError (List UInt8) := do
  let stop ← binaryEnd low piece
  if stop ≤ image.length then
    return overwrite image (wrappingSub piece.lma low) piece.data
  else
    return image

/-- A flat binary image. -/
def binary (pieces : List Piece) : Except RawError (List UInt8) :=
  match (pieces.map Piece.lma).min? with
  | none => .ok []
  | some low => do
    let stops ← pieces.mapM (binaryEnd low)
    pieces.foldlM (binaryCopy low) (List.replicate (stops.foldl max 0) 0)

/-! ### Intel HEX -/

def HEX : List UInt8 := [48, 49, 50, 51, 52, 53, 54, 55, 56, 57, 65, 66, 67, 68, 69, 70]

def pushHex (byte : UInt8) : List UInt8 :=
  [HEX.getD (byte >>> 4).toNat 0, HEX.getD (byte &&& 0xf).toNat 0]

/-- `\r\n`. -/
def crlf : List UInt8 := [13, 10]

/-- The digits of some bytes and a checksum, to the end of the line. -/
def hexLine (front : List UInt8) (check : UInt8) : List UInt8 :=
  front.flatMap pushHex ++ pushHex check ++ crlf

/-- An Intel HEX record, as given to `ihex_record`. -/
structure IhexRecord where
  address : ℕ
  kind : UInt8
  data : List UInt8
  deriving DecidableEq, Repr

/-- The bytes of a record before its checksum. -/
def ihexFront (r : IhexRecord) : List UInt8 :=
  UInt8.ofNat (min r.data.length 255) :: (beBytes 2 r.address ++ r.kind :: r.data)

/-- The text of a record. -/
def ihexRecord (r : IhexRecord) : List UInt8 := 58 :: hexLine (ihexFront r) (-(ihexFront r).sum)

/-- `u16::try_from(value).unwrap_or(0)`. -/
def u16OrZero (value : ℕ) : ℕ := if value < 2 ^ 16 then value else 0

/-- The bases that data addresses count from. -/
structure IhexBase where
  segbase : ℕ
  extbase : ℕ
  deriving DecidableEq, Repr

/-- The record that ends the use of a segment, when there is one. -/
def ihexReset (base : IhexBase) : List IhexRecord :=
  if base.segbase ≠ 0 then [⟨0, 2, [0, 0]⟩] else []

/-- The records that move the base so that it reaches `address`, and the new base. -/
def ihexRebase (base : IhexBase) (address : ℕ) : Except RawError (List IhexRecord × IhexBase) :=
  let relative := wrappingSub address base.extbase
  if address < base.extbase ∨ relative < base.segbase ∨
      0xffff < wrappingSub relative base.segbase then
    if base.extbase = 0 ∧ address ≤ 0xfffff then
      let segbase := address &&& 0xf0000
      .ok ([⟨0, 2, beBytes 2 (u16OrZero (segbase >>> 4))⟩], ⟨segbase, base.extbase⟩)
    else
      let extbase := address &&& 0xffff0000
      if wrappingAdd extbase 0xffff < address then
        .error (.option ("address " ++ hex address ++ " out of range for Intel Hex file"))
      else .ok (ihexReset base ++ [⟨0, 4, beBytes 2 (u16OrZero (extbase >>> 16))⟩], ⟨0, extbase⟩)
  else .ok ([], base)

/-- The next data record: up to 16 bytes, to the end of the 64 KiB of the base. -/
def ihexChunk (base : IhexBase) (address : ℕ) (data : List UInt8) : IhexRecord :=
  let recAddr := wrappingSub address (wrappingAdd base.extbase base.segbase)
  let now := min data.length 16
  let now := if 0xffff < wrappingAdd recAddr now then wrappingSub 0x10000 recAddr else now
  ⟨u16OrZero (recAddr &&& 0xffff), 0, data.take now⟩

/-- The records of the data from `address` on; a round takes a byte at least, so that there are no
more rounds than bytes. -/
def ihexData : ℕ → IhexBase → ℕ → List UInt8 → Except RawError (List IhexRecord × IhexBase)
  | 0, base, _, _ => .ok ([], base)
  | rounds + 1, base, address, data =>
    if data = [] then .ok ([], base)
    else do
      let moved ← ihexRebase base address
      let record := ihexChunk moved.2 address data
      let rest ← ihexData rounds moved.2 (wrappingAdd address record.data.length)
        (data.drop record.data.length)
      return (moved.1 ++ record :: rest.1, rest.2)

/-- The records of a piece. -/
def ihexPiece (base : IhexBase) (piece : Piece) : Except RawError (List IhexRecord × IhexBase) :=
  if 0xffffffff < piece.lma ∧ 0xffffffff < wrappingAdd piece.lma 0x80000000 then
    .error (.option
      ("64-bit address " ++ hex piece.lma ++ " out of range for Intel Hex file"))
  else ihexData piece.data.length base (piece.lma &&& 0xffffffff) piece.data

/-- The records of pieces, in order. -/
def ihexPieces : IhexBase → List Piece → Except RawError (List IhexRecord)
  | _, [] => .ok []
  | base, piece :: rest => do
    let first ← ihexPiece base piece
    let records ← ihexPieces first.2 rest
    return first.1 ++ records

/-- The start address record, when the entry point is not 0. -/
def ihexStart (start : ℕ) : List IhexRecord :=
  if start = 0 then []
  else if start ≤ 0xfffff then
    [⟨0, 3, UInt8.ofNat ((start &&& 0xf0000) >>> 12) :: 0 :: beBytes 2 (start &&& 0xffffffff)⟩]
  else [⟨0, 5, beBytes 4 (start &&& 0xffffffff)⟩]

/-- The end record. -/
def ihexEnd : IhexRecord := ⟨0, 1, []⟩

/-- An Intel HEX image; `start` is the entry point. -/
def ihex (pieces : List Piece) (start : ℕ) : Except RawError (List UInt8) := do
  let records ← ihexPieces ⟨0, 0⟩ (sorted pieces)
  return (records ++ ihexStart start ++ [ihexEnd]).flatMap ihexRecord

/-! ### S-records -/

/-- An S-record, as given to `srec_record`. -/
structure SrecRecord where
  kind : UInt8
  address : ℕ
  data : List UInt8
  deriving DecidableEq, Repr

/-- The size of an address in a record of a kind. -/
def addressBytes (kind : UInt8) : ℕ :=
  if kind = 3 ∨ kind = 7 then 4 else if kind = 2 ∨ kind = 8 then 3 else 2

/-- The bytes of a record before its checksum. -/
def srecFront (r : SrecRecord) : List UInt8 :=
  UInt8.ofNat (min (addressBytes r.kind + r.data.length + 1) 255) ::
    (beBytes (addressBytes r.kind) r.address ++ r.data)

/-- The text of a record. -/
def srecRecord (r : SrecRecord) : List UInt8 :=
  83 :: (48 + r.kind) :: hexLine (srecFront r) (255 - (srecFront r).sum)

/-- The kind of the data records after one more piece. -/
def srecWiden (kind : UInt8) (piece : Piece) : UInt8 :=
  let last := wrappingSub (wrappingAdd piece.lma piece.data.length) 1
  if last ≤ 0xffff then kind else if last ≤ 0xffffff ∧ kind ≤ 2 then 2 else 3

/-- The kind of the data records: the smallest that fits every address. -/
def srecKind (pieces : List Piece) : UInt8 := pieces.foldl srecWiden 1

/-- The data records of a piece, 16 bytes each. -/
def srecPiece (kind : UInt8) (piece : Piece) : List SrecRecord :=
  (List.range ((piece.data.length + 15) / 16)).map fun index =>
    ⟨kind, wrappingAdd piece.lma (index * 16), (piece.data.drop (index * 16)).take 16⟩

/-- The records of a Motorola S-record image. -/
def srecRecords (pieces : List Piece) (start : ℕ) (name : List UInt8) : List SrecRecord :=
  let kind := srecKind pieces
  ⟨0, 0, name.take 40⟩ :: ((sorted pieces).flatMap (srecPiece kind) ++ [⟨10 - kind, start, []⟩])

/-- A Motorola S-record image; `name` goes into the header and `start` into the termination
record. -/
def srec (pieces : List Piece) (start : ℕ) (name : List UInt8) : List UInt8 :=
  (srecRecords pieces start name).flatMap srecRecord

/-! ### The choice -/

/-- A raw output format. -/
inductive Format where
  | binary
  | ihex
  | srec
  deriving DecidableEq, Repr

/-- Renders a format from a laid out and rendered image. -/
def render (format : Format) (sections : List OutSection) (image : List UInt8) (entry : ℕ)
    (name : List UInt8) : Except RawError (List UInt8) := do
  let pieces ← pieces sections image
  match format with
  | .binary => binary pieces
  | .ihex => ihex pieces entry
  | .srec => return srec pieces entry name

end Qld.Elf
