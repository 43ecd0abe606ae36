import Qld.Elf.Bytes
import Qld.Elf.Word
import Qld.Lib.Except
import Qld.Lib.FirstCopy
import Qld.Lib.Segments

/-!
# Unwind records

The model of `elf/ehframe.rs` and of `write_eh_frame` of `elf/write.rs`: which records of the
`.eh_frame` input sections reach the output, which CIEs are copies of others, where the records
stand, and what is written for them.  What the rest of the linker knows is a parameter: symbols and
liveness (`Refs`), addresses, and the values that relocations write.

* `finalize` — `mark`, `dedup` and `assign`, its three passes;
* `cieOf` — the kept CIE of an FDE; `writeEhFrame` — the records of a section in the output.
-/

namespace Qld.Elf.EhFrame

open Qld.Lib

/-! ### Records -/

def U32_MAX : ℕ := 2 ^ 32 - 1

/-- A relocation of an input section. -/
structure Relocation where
  offset : ℕ
  symbol : ℕ
  rType : ℕ
  addend : ℤ
  deriving DecidableEq, Repr

/-- One record of an input `.eh_frame` section. -/
structure Record where
  /-- Offset in the input section. -/
  offset : ℕ
  /-- Size, including the length field. -/
  size : ℕ
  /-- For FDEs, the index of the CIE. -/
  cie : Option ℕ
  /-- Relocation index range. -/
  relocs : ℕ × ℕ
  /-- For FDEs, the relocation of `pc_begin`. -/
  pcBegin : Option ℕ
  /-- Whether the record is part of the output. -/
  live : Bool
  /-- For live records, the offset in this section's contribution. -/
  outOffset : ℕ
  /-- For CIEs that are duplicates, the section and record of the kept copy. -/
  canonical : Option (ℕ × ℕ)
  deriving DecidableEq, Repr

/-- One input `.eh_frame` section. -/
structure EhSection where
  id : ℕ
  file : ℕ
  data : List UInt8
  rela : Bool
  relocs : List Relocation
  records : List Record
  size : ℕ
  deriving DecidableEq, Repr

/-- A `u32` as an `i32`. -/
def signed32 (value : ℕ) : ℤ := if value < 2 ^ 31 then value else (value : ℤ) - 2 ^ 32

/-- A relocation with its addend: for `SHT_REL`, the 32-bit field it patches. -/
def EhSection.reloc (e : Endian) (s : EhSection) (index : ℕ) : Option Relocation :=
  s.relocs[index]?.bind fun rel =>
    if s.rela then some rel
    else (getRange s.data rel.offset (rel.offset + 4)).map fun field =>
      { rel with addend := signed32 (e.getUint field) }

/-- The bytes of a record. -/
def EhSection.bytes (s : EhSection) (r : Record) : Option (List UInt8) :=
  getRange s.data r.offset (r.offset + r.size)

/-- What is known of symbols and sections. -/
structure Refs where
  /-- The symbol of a file, as a global one. -/
  globalId : ℕ → ℕ → Option ℕ
  /-- The section that a symbol of a file is defined in. -/
  targetSection : ℕ → ℕ → Option ℕ
  isLive : ℕ → Bool

/-! ### Liveness -/

/-- The section that a relocation points into. -/
def relocSectionOf (refs : Refs) (s : EhSection) (index : ℕ) : Option ℕ :=
  s.relocs[index]?.bind fun rel => refs.targetSection s.file rel.symbol

/-- Whether a relocation points into a live section. -/
def pointsLive (refs : Refs) (s : EhSection) (index : ℕ) : Bool :=
  (relocSectionOf refs s index).any refs.isLive

/-- Decides about a record with a `pc_begin`; others are not live, for now. -/
def markFde (refs : Refs) (s : EhSection) (r : Record) : Record :=
  match r.pcBegin with
  | none => { r with live := false }
  | some pc => if r.cie.isNone then r else { r with live := pointsLive refs s pc }

/-- A CIE is live when a live FDE uses it. -/
def markCie (marked : List Record) (index : ℕ) (r : Record) : Record :=
  if r.cie.isNone then { r with live := marked.any fun f => f.live && f.cie = some index } else r

/-- The liveness of the records of a section. -/
def mark (refs : Refs) (s : EhSection) : EhSection :=
  let marked := s.records.map (markFde refs s)
  { s with records := marked.mapIdx (markCie marked) }

/-! ### Copies of CIEs -/

/-- Identity of a relocation target. -/
inductive TargetKey where
  | global (id : ℕ)
  | local (file symbol : ℕ)
  | invalid
  deriving DecidableEq, Repr

/-- CIE contents and relocation shapes. -/
abbrev CieKey := List UInt8 × List (ℕ × ℕ × ℤ × TargetKey)

/-- The target of a relocation. -/
def targetKey (refs : Refs) (s : EhSection) (rel : Relocation) : TargetKey :=
  if rel.symbol = 0 then .invalid
  else
    match refs.globalId s.file rel.symbol with
    | some id => .global id
    | none => .local s.file rel.symbol

/-- The contents and relocation targets of a record. -/
def cieKey (e : Endian) (refs : Refs) (s : EhSection) (r : Record) : Option CieKey :=
  (s.bytes r).map fun bytes =>
    (bytes, (List.range' r.relocs.1 (r.relocs.2 - r.relocs.1)).filterMap fun index =>
      (s.reloc e index).map fun rel =>
        (min (rel.offset - r.offset) U32_MAX, rel.rType, rel.addend, targetKey refs s rel))

/-- The live CIEs with their contents, in input order. -/
def liveCies (e : Endian) (refs : Refs) (sections : List EhSection) :
    List ((ℕ × ℕ) × CieKey) :=
  sections.zipIdx.flatMap fun s =>
    s.1.records.zipIdx.filterMap fun r =>
      if r.1.cie.isSome || !r.1.live then none
      else (cieKey e refs s.1 r.1).map fun key => ((s.2, r.2), key)

/-- A record that is a copy of another is left out of the output. -/
def dedupRecord (canonical : List ((ℕ × ℕ) × (ℕ × ℕ))) (sectionIndex index : ℕ) (r : Record) : Record :=
  match canonical.lookup (sectionIndex, index) with
  | some first => { r with live := false, canonical := some first }
  | none => r

/-- Leaves out the CIEs that are copies of earlier ones. -/
def dedup (e : Endian) (refs : Refs) (sections : List EhSection) : List EhSection :=
  let canonical := ((liveCies e refs sections).foldl copyStep ([], [])).2
  sections.mapIdx fun sectionIndex s =>
    { s with records := s.records.mapIdx (dedupRecord canonical sectionIndex) }

/-! ### Offsets -/

/-- `u32::saturating_add`. -/
def saturatingAdd32 (a b : ℕ) : ℕ := min (a + b) U32_MAX

/-- The records with their offsets from `offset` on, and the offset behind them. -/
def assignFrom : ℕ → List Record → List Record × ℕ
  | offset, [] => ([], offset)
  | offset, r :: records =>
    if r.live then
      let rest := assignFrom (saturatingAdd32 offset r.size) records
      ({ r with outOffset := offset } :: rest.1, rest.2)
    else
      let rest := assignFrom offset records
      (r :: rest.1, rest.2)

/-- The offsets of the live records of a section, and its size. -/
def assign (s : EhSection) : EhSection :=
  { s with records := (assignFrom 0 s.records).1, size := (assignFrom 0 s.records).2 }

/-- Decides which records survive, deduplicates CIEs, and assigns offsets within each section's
contribution. -/
def finalize (e : Endian) (refs : Refs) (sections : List EhSection) : List EhSection :=
  (dedup e refs (sections.map (mark refs))).map assign

/-! ### Writing -/

/-- The section of an identifier. -/
def find (sections : List EhSection) (id : ℕ) : Option ℕ := sections.findIdx? fun s => s.id = id

/-- The kept CIE of a record: its section and index. -/
def cieOf (sections : List EhSection) (sectionIndex record : ℕ) : Option (ℕ × ℕ) :=
  sections[sectionIndex]?.bind fun s =>
    s.records[record]?.bind fun r =>
      r.cie.bind fun cie =>
        s.records[cie]?.map fun c => c.canonical.getD (sectionIndex, cie)

/-- Size of the length field of a record. -/
def lengthSize (bytes : List UInt8) : ℕ := if bytes.take 4 = [255, 255, 255, 255] then 12 else 4

/-- What a relocation writes: so many bytes, from those that are there. -/
structure Patch where
  width : ℕ
  write : List UInt8 → Option (List UInt8)

/-- Applies a relocation; one that is out of range only makes a diagnostic. -/
def applyPatch (out : List UInt8) (start : ℕ) (p : Patch) : List UInt8 :=
  match (getRange out start (start + p.width)).bind p.write with
  | some bytes => if bytes.length = p.width then overwrite out start bytes else out
  | none => out

section Write

variable (e : Endian) (address : ℕ → ℕ) (patch : EhSection → Relocation → ℕ → Option Patch)

/-- Stores the CIE pointer of a record: the distance from the field to the kept CIE. -/
def writePointer (sections : List EhSection) (s : EhSection) (index : ℕ) (r : Record)
    (bytes out : List UInt8) : List UInt8 :=
  match cieOf sections ((find sections s.id).getD U64_MAX) index with
  | none => out
  | some kept =>
    match sections[kept.1]?.bind fun t => t.records[kept.2]?.map fun c => (t, c) with
    | none => out
    | some (t, c) =>
      let field := wrappingAdd (wrappingAdd (address s.id) r.outOffset) (lengthSize bytes)
      let cieAddress := wrappingAdd (address t.id) c.outOffset
      let distance := wrappingSub field cieAddress
      let pointer := if distance ≤ U32_MAX then distance else 0
      let start := r.outOffset + lengthSize bytes
      if start + 4 ≤ out.length then overwrite out start (e.putU32 pointer) else out

/-- Where a relocation of a record is in the contribution of the section. -/
def localOffset (r : Record) (rel : Relocation) : ℕ :=
  wrappingAdd (wrappingSub rel.offset r.offset) r.outOffset

/-- What a relocation of a record writes, and where. -/
def patchAt (s : EhSection) (r : Record) (index : ℕ) : Option (ℕ × Patch) :=
  (s.reloc e index).bind fun rel =>
    (patch s rel (wrappingAdd (address s.id) (localOffset r rel))).map fun p =>
      (localOffset r rel, p)

/-- Applies a relocation of a record. -/
def writeReloc (s : EhSection) (r : Record) (out : List UInt8) (index : ℕ) : List UInt8 :=
  match patchAt e address patch s r index with
  | none => out
  | some p => applyPatch out p.1 p.2

/-- Applies the relocations of a record. -/
def writeRelocs (s : EhSection) (r : Record) (out : List UInt8) : List UInt8 :=
  (List.range' r.relocs.1 (r.relocs.2 - r.relocs.1)).foldl (writeReloc e address patch s r) out

/-- Writes a record. -/
def writeRecord (sections : List EhSection) (s : EhSection) (out : List UInt8)
    (r : Record × ℕ) : Except String (List UInt8) :=
  if r.1.live then do
    let bytes ← okOrElse (s.bytes r.1) ".eh_frame record outside its section"
    if out.length < r.1.outOffset + r.1.size then .error ".eh_frame record outside its section"
    let out := overwrite out r.1.outOffset bytes
    let out :=
      if r.1.cie.isSome then writePointer e address sections s r.2 r.1 bytes out else out
    return writeRelocs e address patch s r.1 out
  else return out

/-- Writes the live records of a section. -/
def writeEhFrame (sections : List EhSection) (s : EhSection) (out : List UInt8) :
    Except String (List UInt8) :=
  s.records.zipIdx.foldlM (writeRecord e address patch sections s) out

end Write

end Qld.Elf.EhFrame
