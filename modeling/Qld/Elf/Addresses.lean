import Qld.Elf.Align
import Qld.Elf.Consts

/-!
# Addresses and file offsets

The model of step 4 of `layout_once` of `elf/layout.rs`: the address and the file offset of every
output section, and the `PT_LOAD` segments.  The sections come in section header order; the loop
over the allocated ones is a recursion that hands on its local variables as a `Cursor`.  Where the
outputs that were dropped would have been is left out.

* `loadCount`, `headersSize` — the part of the segment plan that decides where sections start;
* `relroStart` — a RELRO region that ends on a page boundary;
* `openLoad`, `endRelro`, `place` — the loop body; `placeAll` — the loop;
* `placeFile` — the sections that are not allocated; `assignAddresses` — the whole step.
-/

namespace Qld.Elf.Layout

open Qld.Lib

/-! ### Data -/

/-- An output section, as far as addresses depend on it. -/
structure OutSection where
  /-- Index of the placement output. -/
  output : ℕ
  shType : ℕ
  flags : ℕ
  addr : ℕ
  offset : ℕ
  size : ℕ
  align : ℕ
  lma : ℕ
  deriving DecidableEq, Repr

namespace OutSection

/-- Whether the section is allocated. -/
def isAlloc (s : OutSection) : Bool := s.flags &&& SHF_ALLOC ≠ 0

/-- Whether the section occupies file space. -/
def hasFileBytes (s : OutSection) : Bool := s.shType ≠ SHT_NOBITS

/-- Thread-local storage without contents: it takes no addresses. -/
def isTbss (s : OutSection) : Bool := s.flags &&& SHF_TLS ≠ 0 && s.shType = SHT_NOBITS

end OutSection

/-- A program header. -/
structure Segment where
  pType : ℕ
  flags : ℕ
  offset : ℕ
  vaddr : ℕ
  paddr : Option ℕ
  filesz : ℕ
  memsz : ℕ
  align : ℕ
  deriving DecidableEq, Repr

/-- The thread-local storage template. -/
structure Tls where
  start : ℕ
  memsz : ℕ
  align : ℕ
  deriving DecidableEq, Repr

/-- `-z separate-code` and its relatives. -/
inductive SeparateCode where
  | none
  | code
  | loadable
  deriving DecidableEq, Repr

/-- The options that addresses depend on. -/
structure Options where
  kind : ElfKind
  separate : SeparateCode
  relro : Bool
  /-- Whether the rule of a placement output says RELRO. -/
  relroRule : ℕ → Bool
  page : ℕ
  base : ℕ
  /-- The program headers that are not `PT_LOAD`. -/
  otherHeaders : ℕ

namespace Options

/-- The permissions of the segment of a section. -/
def perm (o : Options) (s : OutSection) : ℕ :=
  let flags := PF_R
  let flags := if s.flags &&& SHF_EXECINSTR ≠ 0 then flags ||| PF_X else flags
  let flags := if s.flags &&& SHF_WRITE ≠ 0 then flags ||| PF_W else flags
  if o.separate = .none ∧ flags = PF_R then flags ||| PF_X else flags

def isRelro (o : Options) (s : OutSection) : Bool :=
  o.relro && s.flags &&& SHF_WRITE ≠ 0 && o.relroRule s.output

/-- The permissions of the first segment. -/
def firstPerm (o : Options) : ℕ := if o.separate = .none then PF_R ||| PF_X else PF_R

end Options

/-! ### Headers -/

/-- The allocated sections, from permissions `previous` on: how often the permissions change. -/
def loadChanges (o : Options) : ℕ → List OutSection → ℕ
  | _, [] => 0
  | previous, s :: sections =>
    if s.isAlloc then
      if o.perm s = previous then loadChanges o previous sections
      else 1 + loadChanges o (o.perm s) sections
    else loadChanges o previous sections

/-- The number of `PT_LOAD` segments. -/
def loadCount (o : Options) (sections : List OutSection) : ℕ :=
  1 + loadChanges o o.firstPerm sections

def ehdrSize (kind : ElfKind) : ℕ := if kind.is32 then 52 else 64

def phdrSize (kind : ElfKind) : ℕ := if kind.is32 then 32 else 56

def shdrSize (kind : ElfKind) : ℕ := if kind.is32 then 40 else 64

/-- The space of the ELF header and the program headers. -/
def headersSize (o : Options) (sections : List OutSection) : Except String ℕ :=
  add (ehdrSize o.kind)
    (min (phdrSize o.kind * saturatingAdd (loadCount o sections) o.otherHeaders) U64_MAX)

/-! ### RELRO -/

/-- Where the region ends that starts at `dot`. -/
def relroDot : ℕ → List OutSection → Except String ℕ
  | dot, [] => .ok dot
  | dot, s :: relro => do
    let address ← alignUp dot s.align
    if s.isTbss then relroDot dot relro
    else
      let dot ← add address s.size
      relroDot dot relro

/-- Where the region starts that ends at `position`, its sections from the last one on. -/
def relroBack : ℕ → List OutSection → Except String ℕ
  | position, [] => .ok position
  | position, s :: relro =>
    if s.isTbss then relroBack position relro
    else if position < s.size then .error "RELRO region below address 0"
    else relroBack ((position - s.size) &&& not64 (max s.align 1 - 1)) relro

/-- Start and end of the RELRO region that begins the sections: it ends on a page boundary, and
starts at `start` or later. -/
def relroStart (o : Options) (sections : List OutSection) (start : ℕ) :
    Except String (ℕ × ℕ) := do
  let relro := sections.takeWhile o.isRelro
  let dot ← relroDot start relro
  let stop ← alignUp dot o.page
  let position ← relroBack stop relro.reverse
  if start ≤ position then return (position, stop)
  else
    let stop ← add stop o.page
    let position ← relroBack stop relro.reverse
    if start ≤ position then return (position, stop)
    else
      let _ ← add stop o.page
      let stop ← alignUp dot o.page
      return (start, stop)

/-! ### The loop -/

/-- The local variables of the loop; the last `PT_LOAD` is apart from those before it. -/
structure Cursor where
  dot : ℕ
  fileEnd : ℕ
  /-- Address minus file offset in the current segment. -/
  delta : ℕ
  previous : ℕ
  closed : List Segment
  current : Segment
  tls : Option Tls
  relro : Option (ℕ × ℕ)
  relroEnd : Option ℕ
  etext : ℕ
  edata : ℕ
  bssStart : Option ℕ
  deriving DecidableEq, Repr

namespace Cursor

def loads (c : Cursor) : List Segment := c.closed ++ [c.current]

end Cursor

/-- The address of a new `PT_LOAD`, and the end of a RELRO region that it starts.  A writable one
starts at the next page plus the current page offset. -/
def loadStart (o : Options) (c : Cursor) (s : OutSection) (upcoming : List OutSection) :
    Except String (ℕ × Option ℕ) := do
  let vaddr ← alignUp c.dot o.page
  if o.perm s &&& PF_W ≠ 0 then
    let vaddr ← add vaddr (c.dot &&& (o.page - 1))
    if o.isRelro s then
      let region ← relroStart o upcoming vaddr
      return (region.1, some region.2)
    else return (vaddr, c.relroEnd)
  else return (vaddr, c.relroEnd)

/-- Starts a new `PT_LOAD` when the permissions change, at the smallest file offset that is
congruent to its address. -/
def openLoad (o : Options) (c : Cursor) (s : OutSection) (upcoming : List OutSection) :
    Except String Cursor :=
  if o.perm s = c.previous then .ok c
  else do
    let start ← loadStart o c s upcoming
    let mask := o.page - 1
    let gap := wrappingSub (start.1 &&& mask) (c.fileEnd &&& mask) &&& mask
    let offset ← add c.fileEnd gap
    return { c with
      dot := start.1
      delta := wrappingSub start.1 offset
      previous := o.perm s
      closed := c.closed ++ [c.current]
      current := ⟨PT_LOAD, o.perm s, offset, start.1, none, 0, 0, o.page⟩
      relroEnd := start.2 }

/-- The RELRO region ends on its page boundary. -/
def endRelro (o : Options) (c : Cursor) (s : OutSection) : Cursor :=
  if o.isRelro s then c
  else
    match c.relroEnd with
    | none => c
    | some stop =>
      { c with
        dot := max c.dot stop
        relro := c.relro.map fun region => (region.1, stop)
        relroEnd := none }

/-- The TLS template with a section. -/
def tlsWith (tls : Option Tls) (s : OutSection) (address stop : ℕ) : Option Tls :=
  if s.flags &&& SHF_TLS ≠ 0 then
    let t := tls.getD ⟨address, 0, 1⟩
    some ⟨t.start, stop - t.start, max t.align s.align⟩
  else tls

/-- The RELRO region with a section. -/
def relroWith (o : Options) (relro : Option (ℕ × ℕ)) (s : OutSection) (address stop : ℕ) :
    Option (ℕ × ℕ) :=
  if o.isRelro s ∧ o.perm s &&& PF_W ≠ 0 then
    let region := relro.getD (address, address)
    some (region.1, if s.isTbss then max region.2 address else stop)
  else relro

/-- The current segment with a section. -/
def segmentWith (segment : Segment) (s : OutSection) (stop : ℕ) : Segment :=
  { segment with
    filesz := if s.hasFileBytes then stop - segment.vaddr else segment.filesz
    memsz := if s.isTbss then segment.memsz else stop - segment.vaddr }

/-- Gives an allocated section its address and file offset. -/
def place (o : Options) (c : Cursor) (s : OutSection) : Except String (Cursor × OutSection) := do
  let address ← alignUp c.dot s.align
  let offset := wrappingSub address c.delta
  let stop ← add address s.size
  let bss : Bool := s.shType = SHT_NOBITS && !s.isTbss && s.flags &&& SHF_WRITE ≠ 0
  let data : Bool := s.flags &&& SHF_WRITE ≠ 0 && !s.isTbss
  return (
    { c with
      dot := if s.isTbss then c.dot else stop
      fileEnd := if s.hasFileBytes then max c.fileEnd (saturatingAdd offset s.size) else c.fileEnd
      current := segmentWith c.current s stop
      tls := tlsWith c.tls s address stop
      relro := relroWith o c.relro s address stop
      etext := if o.perm s &&& PF_X ≠ 0 then stop else c.etext
      edata := if !bss && data then stop else c.edata
      bssStart := if bss then some (c.bssStart.getD address) else c.bssStart },
    { s with addr := address, offset := offset })

/-- One round of the loop. -/
def placeNext (o : Options) (c : Cursor) (s : OutSection) (upcoming : List OutSection) :
    Except String (Cursor × OutSection) := do
  let c ← openLoad o c s upcoming
  place o (endRelro o c s) s

/-- Places the allocated sections. -/
def placeAll (o : Options) : Cursor → List OutSection → Except String (Cursor × List OutSection)
  | c, [] => .ok (c, [])
  | c, s :: sections =>
    if s.isAlloc then do
      let placed ← placeNext o c s (s :: sections.filter OutSection.isAlloc)
      let rest ← placeAll o placed.1 sections
      return (rest.1, placed.2 :: rest.2)
    else do
      let rest ← placeAll o c sections
      return (rest.1, s :: rest.2)

/-- Places the sections that are not allocated, in the file. -/
def placeFile : ℕ → List OutSection → Except String (ℕ × List OutSection)
  | fileEnd, [] => .ok (fileEnd, [])
  | fileEnd, s :: sections =>
    if s.isAlloc then do
      let rest ← placeFile fileEnd sections
      return (rest.1, s :: rest.2)
    else do
      let offset ← alignUp fileEnd s.align
      let fileEnd ← add offset s.size
      let rest ← placeFile fileEnd sections
      return (rest.1, { s with offset := offset } :: rest.2)

/-! ### The step -/

/-- What the step decides. -/
structure Image where
  sections : List OutSection
  loads : List Segment
  tls : Option Tls
  relro : Option (ℕ × ℕ)
  headers : ℕ
  etext : ℕ
  edata : ℕ
  bssStart : Option ℕ
  stop : ℕ
  shoff : ℕ
  fileSize : ℕ
  deriving DecidableEq, Repr

/-- The loop variables before the first section. -/
def initial (o : Options) (base headers dot : ℕ) : Cursor where
  dot := dot
  fileEnd := headers
  delta := base
  previous := o.firstPerm
  closed := []
  current := ⟨PT_LOAD, o.firstPerm, 0, base, none, headers, headers, o.page⟩
  tls := none
  relro := none
  relroEnd := none
  etext := dot
  edata := dot
  bssStart := none

/-- Addresses and file offsets. -/
def assignAddresses (o : Options) (sections : List OutSection) : Except String Image := do
  let base ← alignUp o.base 1
  let headers ← headersSize o sections
  let dot ← add base headers
  let placed ← placeAll o (initial o base headers dot) sections
  let stop ← alignUp placed.1.dot o.kind.wordSize
  let ends := placed.1.loads.map fun load => saturatingAdd load.offset load.filesz
  let file ← placeFile (max (ends.foldl max 0) placed.1.fileEnd) placed.2
  let shoff ← alignUp file.1 o.kind.wordSize
  let fileSize ← add shoff (min ((file.2.length + 1) * shdrSize o.kind) U64_MAX)
  return {
    sections := file.2.map fun s => { s with lma := s.addr }
    loads := placed.1.loads
    tls := placed.1.tls
    relro := placed.1.relro
    headers := headers
    etext := placed.1.etext
    edata := placed.1.edata
    bssStart := placed.1.bssStart
    stop := stop
    shoff := shoff
    fileSize := fileSize }

end Qld.Elf.Layout
