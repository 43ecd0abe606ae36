import Qld.Elf.Align
import Qld.Macho.Fixups

/-!
# Sections, segments and addresses

The model of `macho/layout.rs` from the output sections on: `plan` orders segments and sections, and
`assign_addresses` places them.  The address and the file offset of a section come from two cursors,
each rounded up to the alignment of the section.

* `sectionOrder`, `segmentOrder`, `planSegments` — the order of sections and segments;
* `placeSection`, `placeSegment`, `assignAddresses` — addresses and file offsets;
* `fileOffset` — where the contents of an address are in the file.
-/

namespace Qld.Macho

open Qld.Lib

/-! ### Names -/

def TEXT : List UInt8 := ascii "__TEXT"
def DATA : List UInt8 := ascii "__DATA"
def DATA_CONST : List UInt8 := ascii "__DATA_CONST"
def LINKEDIT : List UInt8 := ascii "__LINKEDIT"

/-! ### Sections -/

def SECTION_TYPE : ℕ := 0xff
def S_ZEROFILL : ℕ := 0x1
def S_GB_ZEROFILL : ℕ := 0xc
def S_THREAD_LOCAL_REGULAR : ℕ := 0x11
def S_THREAD_LOCAL_ZEROFILL : ℕ := 0x12
def S_THREAD_LOCAL_VARIABLES : ℕ := 0x13

/-- An output section. -/
structure OutSection where
  segname : List UInt8
  sectname : List UInt8
  flags : ℕ
  /-- Alignment, as a power of two. -/
  align : ℕ
  size : ℕ
  /-- Creation order, for sorting. -/
  inputOrder : ℕ
  addr : ℕ
  /-- File offset (0 for zero-fill sections). -/
  offset : ℕ
  deriving DecidableEq, Repr

namespace OutSection

def type (s : OutSection) : ℕ := s.flags &&& SECTION_TYPE

/-- Whether the section has no file contents. -/
def isZerofill (s : OutSection) : Bool :=
  s.type = S_ZEROFILL || s.type = S_THREAD_LOCAL_ZEROFILL || s.type = S_GB_ZEROFILL

/-- The alignment in bytes: `1u64.checked_shl(align).unwrap_or(1)`. -/
def alignment (s : OutSection) : ℕ := if s.align < 64 then 2 ^ s.align else 1

end OutSection

/-! ### Order -/

def I64_MAX : ℤ := 2 ^ 63 - 1

/-- The place of a section in its segment. -/
def sectionOrder (s : OutSection) : ℤ :=
  if s.segname = TEXT then
    if s.sectname = ascii "__text" then -5
    else if s.sectname = ascii "__stubs" ∨ s.sectname = ascii "__auth_stubs" then -4
    else if s.sectname = ascii "__stub_helper" then -3
    else if s.sectname = ascii "__unwind_info" then I64_MAX - 1
    else if s.sectname = ascii "__eh_frame" then I64_MAX
    else 0
  else if s.segname = DATA ∨ s.segname = DATA_CONST then
    if s.type = S_THREAD_LOCAL_VARIABLES then I64_MAX - 3
    else if s.type = S_THREAD_LOCAL_REGULAR then I64_MAX - 2
    else if s.type = S_THREAD_LOCAL_ZEROFILL then I64_MAX - 1
    else if s.type = S_ZEROFILL then I64_MAX
    else if s.sectname = ascii "__got" then -3
    else if s.sectname = ascii "__auth_got" then -2
    else if s.sectname = ascii "__la_symbol_ptr" then -2
    else if s.sectname = ascii "__const" then -1
    else 0
  else 0

/-- The place of a segment. -/
def segmentOrder (name : List UInt8) : ℤ :=
  if name = pagezero then -4
  else if name = TEXT then -3
  else if name = DATA_CONST then -2
  else if name = DATA then -1
  else if name = ascii "__LLVM" then I64_MAX - 1
  else if name = LINKEDIT then I64_MAX
  else 0

/-- What a layout depends on. -/
structure Config where
  /-- Segment alignment: 16 KiB on arm64, 4 KiB on x86_64. -/
  pageSize : ℕ
  /-- The size of `__PAGEZERO`; 0 when there is none. -/
  pagezero : ℕ
  imageBase : ℕ
  pageSize_eq : pageSize = 2 ^ 12 ∨ pageSize = 2 ^ 14
  pagezero_lt : pagezero < 2 ^ 64
  imageBase_lt : imageBase < 2 ^ 64

/-- A name is added when it is new. -/
def addName (names : List (List UInt8)) (s : OutSection) : List (List UInt8) :=
  if s.segname ∈ names then names else names ++ [s.segname]

/-- The names of the segments, in order. -/
def segmentNames (config : Config) (sections : List OutSection) : List (List UInt8) :=
  let fixed := (if 0 < config.pagezero then [pagezero] else []) ++ [TEXT]
  (sections.foldl addName fixed ++ [LINKEDIT]).mergeSort fun a b => segmentOrder a ≤ segmentOrder b

/-- Sections are sorted by segment, then by place in the segment, then by creation. -/
def sectionLe (names : List (List UInt8)) (a b : OutSection) : Bool :=
  names.idxOf a.segname < names.idxOf b.segname ||
    (names.idxOf a.segname = names.idxOf b.segname && (sectionOrder a < sectionOrder b ||
      (sectionOrder a = sectionOrder b && a.inputOrder ≤ b.inputOrder)))

/-- A segment and its sections, before they have addresses. -/
abbrev Planned : Type := List UInt8 × List OutSection

/-- The segments with their sections, in address order. -/
def planSegments (config : Config) (sections : List OutSection) : List Planned :=
  let names := segmentNames config sections
  let sorted := sections.mergeSort (sectionLe names)
  names.zipIdx.map fun x => (x.1, sorted.filter fun s => names.idxOf s.segname = x.2)

/-! ### Addresses -/

/-- `value`, rounded up to a multiple of `align` (a power of two), saturating. -/
def alignUp (value align : ℕ) : ℕ :=
  if align ≤ 1 then value
  else ((checkedAdd value (align - 1)).map fun v => v &&& Elf.not64 (align - 1)).getD U64_MAX

def overflow : String := "the image does not fit the address space"

/-- `checked_add`, or an error. -/
def addOr (a b : ℕ) : Except String ℕ := okOrElse (checkedAdd a b) overflow

/-- The next address and the next file offset. -/
structure Cursor where
  addr : ℕ
  file : ℕ
  deriving DecidableEq, Repr

/-- Places a section. -/
def placeSection (c : Cursor) (s : OutSection) : Except String (Cursor × OutSection) := do
  let addr := alignUp c.addr s.alignment
  let nextAddr ← addOr addr s.size
  if s.isZerofill then return (⟨nextAddr, c.file⟩, { s with addr := addr, offset := 0 })
  else
    let file := alignUp c.file s.alignment
    let nextFile ← addOr file s.size
    return (⟨nextAddr, nextFile⟩, { s with addr := addr, offset := file })

/-- Places the sections of a segment. -/
def placeSections : List OutSection → Cursor → Except String (Cursor × List OutSection)
  | [], c => .ok (c, [])
  | s :: sections, c => do
    let (c, s) ← placeSection c s
    let (c, sections) ← placeSections sections c
    return (c, s :: sections)

/-- A segment and its sections, with addresses. -/
abbrev Placed : Type := OutSegment × List OutSection

/-- `__TEXT` starts with the header and the load commands. -/
def skipHeader (headerSize : ℕ) (name : List UInt8) (c : Cursor) : Except String Cursor :=
  if name = TEXT then do
    let addr ← addOr c.addr headerSize
    let file ← addOr c.file headerSize
    return ⟨addr, file⟩
  else .ok c

/-- Places a segment with contents. -/
def placeContents (config : Config) (headerSize : ℕ) (c : Cursor) (segment : Planned) :
    Except String (Cursor × Placed) := do
  let first ← skipHeader headerSize segment.1 c
  let (stop, sections) ← placeSections segment.2 first
  let vmsize := alignUp (stop.addr - c.addr) config.pageSize
  -- a segment with no file contents takes no file space
  let filesize := if stop.file = c.file then 0 else alignUp (stop.file - c.file) config.pageSize
  let addr ← addOr c.addr vmsize
  let file ← addOr c.file filesize
  return (⟨addr, file⟩, ⟨segment.1, c.addr, vmsize, c.file, filesize⟩, sections)

/-- Places a segment. -/
def placeSegment (config : Config) (headerSize : ℕ) (c : Cursor) (segment : Planned) :
    Except String (Cursor × Placed) :=
  if segment.1 = pagezero then
    .ok (⟨max config.imageBase config.pagezero, c.file⟩,
      ⟨segment.1, 0, config.pagezero, 0, 0⟩, segment.2)
  else if segment.1 = LINKEDIT then .ok (c, ⟨segment.1, c.addr, 0, c.file, 0⟩, segment.2)
  else placeContents config headerSize c segment

/-- Places segments one after the other. -/
def placeSegments (config : Config) (headerSize : ℕ) :
    List Planned → Cursor → Except String (List Placed)
  | [], _ => .ok []
  | segment :: segments, c => do
    let (c, placed) ← placeSegment config headerSize c segment
    let rest ← placeSegments config headerSize segments c
    return placed :: rest

/-- Assigns addresses and file offsets to the segments of a plan. -/
def assignAddresses (config : Config) (headerSize : ℕ) (sections : List OutSection) :
    Except String (List Placed) :=
  placeSegments config headerSize (planSegments config sections) ⟨0, 0⟩

/-! ### The loader -/

/-- The file offset of an address with contents. -/
def fileOffsetOf (segments : List OutSegment) (addr : ℕ) : Option ℕ :=
  (segments.find? fun s =>
    0 < s.filesize ∧ s.vmaddr ≤ addr ∧ addr < saturatingAdd s.vmaddr s.filesize).map fun s =>
      saturatingAdd s.fileoff (addr - s.vmaddr)

/-! ### Rounding -/

/-- **Rounding up.**  The result is the least multiple of the alignment, or the largest
`u64`. -/
theorem alignUp_spec {value k : ℕ} (hvalue : value < 2 ^ 64) (hk : k < 64) :
    value ≤ alignUp value (2 ^ k) ∧ alignUp value (2 ^ k) ≤ U64_MAX ∧
      (U64_MAX < value + (2 ^ k - 1) → alignUp value (2 ^ k) = U64_MAX) ∧
      (value + (2 ^ k - 1) ≤ U64_MAX →
        alignUp value (2 ^ k) = (value + (2 ^ k - 1)) / 2 ^ k * 2 ^ k) := by
  have hpos := Nat.two_pow_pos k
  have hmax : U64_MAX + 1 = 2 ^ 64 := rfl
  rw [alignUp]
  split
  · next hone =>
    have hone : 2 ^ k = 1 := by omega
    rw [hone, Nat.sub_self, Nat.add_zero, Nat.div_one, Nat.mul_one]
    omega
  · have hround := Nat.div_add_mod' (value + (2 ^ k - 1)) (2 ^ k)
    have hmod := Nat.mod_lt (value + (2 ^ k - 1)) hpos
    by_cases hfits : value + (2 ^ k - 1) < 2 ^ 64
    · rw [checkedAdd, if_pos hfits, Option.map_some, Option.getD_some,
        Elf.land_not_low hfits (by omega)]
      refine ⟨by omega, by omega, fun hlarge => ?_, fun _ => rfl⟩
      omega
    · rw [checkedAdd, if_neg hfits, Option.map_none, Option.getD_none]
      refine ⟨by omega, le_rfl, fun _ => rfl, fun hsmall => ?_⟩
      omega

end Qld.Macho
