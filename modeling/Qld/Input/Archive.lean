import Mathlib.Data.List.DropRight
import Qld.Elf.Read.Strtab
import Qld.Input.Read
import Qld.Lib.Except

/-!
# Archives

The model of `input/archive.rs`: GNU, BSD, COFF and thin `ar` archives.  `Path` is the type of file
names; `parent` gives the directory of one, the empty name when it has none.

* `Archive.headerAt`, `rawName`, `resolveName`, `nextOffset`, `memberFromHeader` — the walk over the
  headers;
* `SymbolIndex`, `SymbolIter` — the symbol index, and the iterator over it;
* `Archive.parse`, `Archive.memberAt`, `Members` — the archive, one member, and all of them.

Both walks end because a header is followed by a later one: `Archive.lt_of_nextOffset`.
-/

namespace Qld.Input

open Qld.Lib Qld.Elf Qld.Elf.Read

/-! ### Data -/

def MAGIC : List UInt8 := ascii "!<arch>\n"

def THIN_MAGIC : List UInt8 := ascii "!<thin>\n"

/-- The size of a member header. -/
def HEADER_SIZE : ℕ := 60

def MAGIC_SIZE : ℕ := 8

/-- Which dialect an archive is written in. -/
inductive ArchiveKind where
  | gnu
  | bsd
  | coff
  deriving DecidableEq, Repr

/-- The encoding of a symbol index. -/
inductive SymbolIndexKind where
  | sysv32
  | sysv64
  | bsd32 (bigEndian : Bool)
  | bsd64 (bigEndian : Bool)
  deriving DecidableEq, Repr

/-- The size of one entry of the offset table. -/
def SymbolIndexKind.entrySize : SymbolIndexKind → ℕ
  | sysv32 => 4
  | sysv64 => 8
  | bsd32 _ => 8
  | bsd64 _ => 16

/-- `Error::Malformed`. -/
structure Malformed (Path : Type) where
  path : Path
  offset : ℕ
  what : String
  deriving DecidableEq, Repr

/-- Which member defines each symbol. -/
structure SymbolIndex (Path : Type) where
  kind : SymbolIndexKind
  path : Path
  entries : List UInt8
  strings : List UInt8
  stringsOffset : ℕ
  len : ℕ
  deriving DecidableEq, Repr

/-- One entry of a symbol index. -/
structure ArchiveSymbol where
  name : List UInt8
  memberOffset : ℕ
  deriving DecidableEq, Repr

/-- Where the contents of a member are. -/
inductive MemberData (Path : Type) where
  | inline (offset : ℕ) (bytes : List UInt8)
  | external (dir : Path)
  deriving DecidableEq, Repr

/-- One member. -/
structure Member (Path : Type) where
  name : List UInt8
  headerOffset : ℕ
  size : ℕ
  data : MemberData Path
  deriving DecidableEq, Repr

/-- A parsed member header. -/
structure Header where
  offset : ℕ
  name : List UInt8
  size : ℕ
  dataStart : ℕ
  deriving DecidableEq, Repr

/-- What the name field of a header says. -/
inductive RawName where
  | symbolIndex
  | symbolIndex64
  | longNames
  | otherSpecial
  | longName (offset : ℕ)
  | bsdName (len : ℕ)
  | short (name : List UInt8)
  deriving DecidableEq, Repr

def RawName.isSpecial : RawName → Bool
  | symbolIndex | symbolIndex64 | longNames | otherSpecial => true
  | longName _ | bsdName _ | short _ => false

/-- A parsed archive. -/
structure Archive (Path : Type) where
  data : List UInt8
  path : Path
  thin : Bool
  kind : ArchiveKind
  longNames : Option (List UInt8 × ℕ)
  index : Option (SymbolIndex Path)
  firstMember : ℕ
  deriving DecidableEq, Repr

/-! ### Fields -/

def trimSpaces (field : List UInt8) : List UInt8 :=
  (field.dropWhile (· == 0x20)).rdropWhile (· == 0x20)

def trimTrailing (field : List UInt8) (byte : UInt8) : List UInt8 := field.rdropWhile (· == byte)

def isAsciiDigit (byte : UInt8) : Bool := 0x30 ≤ byte ∧ byte ≤ 0x39

def parseDecimal (field : List UInt8) : Option ℕ :=
  let trimmed := trimSpaces field
  if trimmed = [] then none
  else
    trimmed.foldlM (fun value byte =>
      if isAsciiDigit byte = false then none
      else (checkedMul value 10).bind fun scaled => checkedAdd scaled (byte.toNat - 0x30)) 0

/-- Whether a name is that of a BSD symbol index, and whether of the 64-bit one. -/
def isBsdSymdef (name : List UInt8) : Option Bool :=
  if name = ascii "__.SYMDEF" ∨ name = ascii "__.SYMDEF SORTED" then some false
  else if name = ascii "__.SYMDEF_64" ∨ name = ascii "__.SYMDEF_64 SORTED" then some true
  else none

/-! ### The symbol index -/

variable {Path : Type}

/-- Reads the name that starts at `start` in the string table, and the position after its
terminator. -/
def SymbolIndex.nameAt (index : SymbolIndex Path) (start : ℕ) :
    Except (Malformed Path) (List UInt8 × ℕ) :=
  let error : Malformed Path := ⟨index.path, index.stringsOffset, "archive symbol table name"⟩
  match tail index.strings start with
  | none => .error error
  | some rest =>
    if rest = [] then .error error
    else
      let len := (findNul rest).getD rest.length
      .ok (rest.take len, saturatingAdd (saturatingAdd start len) 1)

/-- An iterator over a symbol index. -/
structure SymbolIter where
  next : ℕ
  stringPos : ℕ
  failed : Bool
  deriving DecidableEq, Repr

namespace SymbolIter

/-- The entry at the position of the iterator, and where the next name of a SysV index starts. -/
def entry (index : SymbolIndex Path) (it : SymbolIter) :
    Except (Malformed Path) (ArchiveSymbol × ℕ) := do
  let size := index.kind.entrySize
  let at_ ← okOrElse (checkedMul it.next size) ⟨index.path, 0, "archive symbol table"⟩
  let badEntry : Malformed Path := ⟨index.path, index.stringsOffset, "archive symbol table entry"⟩
  match index.kind with
  | .sysv32 =>
    let member ← okOrElse (u32Be index.entries at_) badEntry
    let name ← index.nameAt it.stringPos
    return (⟨name.1, member⟩, name.2)
  | .sysv64 =>
    let member ← okOrElse (u64Be index.entries at_) badEntry
    let name ← index.nameAt it.stringPos
    return (⟨name.1, member⟩, name.2)
  | .bsd32 bigEndian =>
    let field := fun offset => (checkedAdd at_ offset).bind fun offset =>
      if bigEndian then u32Be index.entries offset else u32Le index.entries offset
    let strx ← okOrElse (field 0) badEntry
    let member ← okOrElse (field 4) badEntry
    let strx ← okOrElse (toUsize strx) badEntry
    let name ← index.nameAt strx
    return (⟨name.1, member⟩, it.stringPos)
  | .bsd64 bigEndian =>
    let field := fun offset => (checkedAdd at_ offset).bind fun offset =>
      if bigEndian then u64Be index.entries offset else u64Le index.entries offset
    let strx ← okOrElse (field 0) badEntry
    let member ← okOrElse (field 8) badEntry
    let strx ← okOrElse (toUsize strx) badEntry
    let name ← index.nameAt strx
    return (⟨name.1, member⟩, it.stringPos)

/-- The next item, and the iterator after it. -/
def step (index : SymbolIndex Path) (it : SymbolIter) :
    Option (Except (Malformed Path) ArchiveSymbol) × SymbolIter :=
  if it.failed = true ∨ index.len ≤ it.next then (none, it)
  else
    match entry index it with
    -- `next` is below `len`, so that the addition does not saturate.
    | .ok (symbol, stringPos) => (some (.ok symbol), ⟨it.next + 1, stringPos, false⟩)
    | .error error => (some (.error error), { it with failed := true })

/-- How often the iterator may still yield. -/
def remaining (index : SymbolIndex Path) (it : SymbolIter) : ℕ :=
  if it.failed then 0 else index.len - it.next

theorem remaining_step {index : SymbolIndex Path} {it it' : SymbolIter}
    {item : Except (Malformed Path) ArchiveSymbol} (h : it.step index = (some item, it')) :
    it'.remaining index < it.remaining index := by
  rw [step] at h
  split at h
  · exact nomatch (Prod.mk.inj h).1
  next hgo =>
  simp only [not_or, Bool.not_eq_true, Nat.not_le] at hgo
  have hbefore : it.remaining index = index.len - it.next := by
    rw [remaining, hgo.1, if_neg (by decide)]
  split at h
  · obtain rfl := (Prod.mk.inj h).2
    rw [hbefore, remaining, if_neg Bool.false_ne_true]
    simp only
    omega
  · obtain rfl := (Prod.mk.inj h).2
    rw [hbefore, remaining, if_pos rfl]
    omega

/-- What the iterator yields. -/
def items (index : SymbolIndex Path) (it : SymbolIter) :
    List (Except (Malformed Path) ArchiveSymbol) :=
  match h : it.step index with
  | (none, _) => []
  | (some item, it') => item :: items index it'
termination_by it.remaining index
decreasing_by exact remaining_step h

end SymbolIter

/-- The entries of an index, in its order. -/
def SymbolIndex.symbols (index : SymbolIndex Path) : List (Except (Malformed Path) ArchiveSymbol) :=
  SymbolIter.items index ⟨0, 0, false⟩

/-! ### Headers -/

namespace Archive

def malformed (archive : Archive Path) (offset : ℕ) (what : String) : Malformed Path :=
  ⟨archive.path, offset, what⟩

def headerAt (archive : Archive Path) (offset : ℕ) : Except (Malformed Path) Header := do
  let raw ← okOrElse (bytes archive.data offset HEADER_SIZE)
    (archive.malformed offset "archive member header (truncated)")
  let field := fun start len => (bytes raw start len).getD []
  if field 58 2 ≠ ascii "`\n" then .error (archive.malformed offset "archive member header")
  else
    let size ← okOrElse (parseDecimal (field 48 10)) (archive.malformed offset "archive member size")
    let dataStart ← okOrElse (checkedAdd offset HEADER_SIZE)
      (archive.malformed offset "archive member header")
    return ⟨offset, field 0 16, size, dataStart⟩

def rawName (archive : Archive Path) (header : Header) : Except (Malformed Path) RawName :=
  let name := trimTrailing header.name 0x20
  if name = ascii "/" then .ok .symbolIndex
  else if name = ascii "//" then .ok .longNames
  else if name = ascii "/SYM64/" then .ok .symbolIndex64
  else
    match name.dropPrefix? (ascii "#1/") with
    | some rest =>
      (okOrElse ((parseDecimal rest).bind toUsize)
        (archive.malformed header.offset "BSD archive member name length")).map .bsdName
    | none =>
      match name.dropPrefix? (ascii "/") with
      | some rest =>
        if ascii "<" <+: rest ∧ ascii ">/" <:+ rest then .ok .otherSpecial
        else
          (okOrElse ((parseDecimal ((rest.dropSuffix? (ascii "/")).getD rest)).bind toUsize)
            (archive.malformed header.offset "archive member name")).map .longName
      | none => .ok (.short ((name.dropSuffix? (ascii "/")).getD name))

/-- The name of a member, where its contents start, and their size. -/
def resolveName (archive : Archive Path) (header : Header) (raw : RawName) :
    Except (Malformed Path) (List UInt8 × ℕ × ℕ) :=
  match raw with
  | .short name => .ok (name, header.dataStart, header.size)
  | .longName offset => do
    let bad := archive.malformed header.offset "archive long member name reference"
    let table ← okOrElse archive.longNames bad
    let rest ← okOrElse ((tail table.1 offset).filter fun r => r ≠ []) bad
    let stop := (rest.findIdx? fun b => b == 0x0a || b == 0).getD rest.length
    let name := rest.take stop
    let name := (name.dropSuffix? (ascii "/")).getD name
    if name = [] then
      .error (archive.malformed (saturatingAdd table.2 offset) "archive long member name")
    else return (name, header.dataStart, header.size)
  | .bsdName len => do
    let bad := archive.malformed header.offset "BSD archive member name"
    let size ← okOrElse (if len ≤ header.size then some (header.size - len) else none) bad
    let name ← okOrElse (bytes archive.data header.dataStart len) bad
    let start ← okOrElse (checkedAdd header.dataStart len) bad
    return (trimTrailing name 0, start, size)
  | .symbolIndex | .symbolIndex64 | .longNames | .otherSpecial =>
    .error (archive.malformed header.offset "archive member name")

/-- The inline contents of a member: bytes and their file offset. -/
def inlineData (archive : Archive Path) (header : Header) :
    Except (Malformed Path) (List UInt8 × ℕ) := do
  let size ← okOrElse (toUsize header.size) (archive.malformed header.offset "archive member size")
  let contents ← okOrElse (bytes archive.data header.dataStart size)
    (archive.malformed header.offset "archive member size (extends past end of file)")
  return (contents, header.dataStart)

/-- Where the contents of a member end; `inline` says whether they are stored in the archive. -/
def contentsEnd (archive : Archive Path) (header : Header) (inline : Bool) :
    Except (Malformed Path) (Option ℕ) :=
  if inline then
    (archive.inlineData header).map fun contents => checkedAdd contents.2 contents.1.length
  else .ok (some header.dataStart)

/-- The offset of the header after `header`. -/
def nextOffset (archive : Archive Path) (header : Header) (inline : Bool) :
    Except (Malformed Path) ℕ := do
  let stop ← archive.contentsEnd header inline
  let stop ← okOrElse stop (archive.malformed header.offset "archive member size")
  -- Members are padded to an even offset; the pad byte after the last one may be missing.
  let padded := (checkedAdd stop (stop % 2)).getD stop
  return max (min padded archive.data.length) stop

/-- The member of a regular header, or `none` for a special member. -/
def memberFromHeader (parent : Path → Path) (archive : Archive Path) (header : Header) :
    Except (Malformed Path) (Option (Member Path)) := do
  let raw ← archive.rawName header
  if raw.isSpecial then return none
  else
    let named ← archive.resolveName header raw
    if (isBsdSymdef named.1).isSome then return none
    else if archive.thin then
      return some ⟨named.1, header.offset, named.2.2, .external (parent archive.path)⟩
    else
      let bad := archive.malformed header.offset "archive member size (extends past end of file)"
      let len ← okOrElse (toUsize named.2.2) bad
      let contents ← okOrElse (bytes archive.data named.2.1 len) bad
      return some ⟨named.1, header.offset, named.2.2, .inline named.2.1 contents⟩

/-! ### Reading the symbol index -/

def sysvIndex (archive : Archive Path) (header : Header) (is64 : Bool) :
    Except (Malformed Path) (SymbolIndex Path) := do
  let contents ← archive.inlineData header
  let bad := archive.malformed contents.2 "archive symbol table"
  let width := if is64 then 8 else 4
  let count ← okOrElse (if is64 then u64Be contents.1 0 else u32Be contents.1 0) bad
  let count ← okOrElse (toUsize count) bad
  let tableLen ← okOrElse (checkedMul count width) bad
  let entries ← okOrElse (bytes contents.1 width tableLen) bad
  let stringsStart ← okOrElse (checkedAdd width tableLen) bad
  let strings ← okOrElse (tail contents.1 stringsStart) bad
  return ⟨if is64 then .sysv64 else .sysv32, archive.path, entries, strings,
    saturatingAdd contents.2 stringsStart, count⟩

/-- The layout of a BSD symbol index, in one byte order. -/
def bsdLayout (archive : Archive Path) (contents : List UInt8) (start : ℕ)
    (is64 bigEndian : Bool) : Option (SymbolIndex Path) := do
  let width := if is64 then 8 else 4
  let entry := if is64 then 16 else 8
  let field : ℕ → Option ℕ := fun offset =>
    (match is64, bigEndian with
      | false, false => u32Le contents offset
      | false, true => u32Be contents offset
      | true, false => u64Le contents offset
      | true, true => u64Be contents offset).bind toUsize
  let ranlibBytes ← field 0
  if ranlibBytes % entry ≠ 0 then none
  else
    let entries ← bytes contents width ranlibBytes
    let stringsSizeAt ← checkedAdd width ranlibBytes
    let stringsSize ← field stringsSizeAt
    let stringsStart ← checkedAdd stringsSizeAt width
    let strings ← bytes contents stringsStart stringsSize
    return ⟨if is64 then .bsd64 bigEndian else .bsd32 bigEndian, archive.path, entries, strings,
      saturatingAdd start stringsStart, ranlibBytes / entry⟩

def bsdIndex (archive : Archive Path) (header : Header) (raw : RawName) (is64 : Bool) :
    Except (Malformed Path) (SymbolIndex Path) := do
  let named ← archive.resolveName header raw
  let start := named.2.1
  let bad := archive.malformed start "BSD archive symbol table"
  let size ← okOrElse (toUsize named.2.2) bad
  let contents ← okOrElse (bytes archive.data start size) bad
  okOrElse ((archive.bsdLayout contents start is64 false).or
    (archive.bsdLayout contents start is64 true)) bad

/-! ### The walk goes forward -/

variable {archive archive' : Archive Path} {offset next : ℕ} {header : Header}

theorem headerAt_eq_ok (h : archive.headerAt offset = .ok header) :
    header.offset = offset ∧ header.dataStart = offset + HEADER_SIZE ∧
      offset + HEADER_SIZE < 2 ^ 64 ∧ offset + HEADER_SIZE ≤ archive.data.length ∧
      header.name = (archive.data.drop offset).take 16 := by
  obtain ⟨raw, hraw, h⟩ := bind_eq_ok.mp h
  obtain ⟨hlt, hle, rfl, hlen⟩ := bytes_eq_some (okOrElse_eq_ok.mp hraw)
  simp only at h
  split at h
  · exact nomatch h
  obtain ⟨size, -, h⟩ := bind_eq_ok.mp h
  obtain ⟨dataStart, hstart, h⟩ := bind_eq_ok.mp h
  obtain rfl := Except.ok.inj h
  refine ⟨rfl, (checkedAdd_eq_some (okOrElse_eq_ok.mp hstart)).1, hlt, hle, ?_⟩
  rw [HEADER_SIZE] at hlen
  have hfield : bytes ((archive.data.drop offset).take HEADER_SIZE) 0 16 =
      some ((((archive.data.drop offset).take HEADER_SIZE).drop 0).take 16) :=
    bytes_of_le (by decide) (by rw [HEADER_SIZE, hlen]; decide)
  rw [hfield, Option.getD_some, List.drop_zero, List.take_take]
  rfl

theorem inlineData_eq_ok {contents : List UInt8 × ℕ} (h : archive.inlineData header = .ok contents)
    :
    contents.2 = header.dataStart ∧ contents.1.length = header.size ∧
      header.dataStart + header.size ≤ archive.data.length := by
  obtain ⟨size, hsize, h⟩ := bind_eq_ok.mp h
  obtain ⟨bytes, hbytes, h⟩ := bind_eq_ok.mp h
  obtain rfl := Except.ok.inj h
  obtain ⟨rfl, -⟩ := toUsize_eq_some (okOrElse_eq_ok.mp hsize)
  obtain ⟨-, hle, -, hlen⟩ := bytes_eq_some (okOrElse_eq_ok.mp hbytes)
  exact ⟨rfl, hlen, hle⟩

/-- The next header is not before the end of the contents. -/
theorem nextOffset_eq_ok {inline : Bool} (h : archive.nextOffset header inline = .ok next) :
    header.dataStart ≤ next ∧
      (inline = true → header.dataStart + header.size ≤ next ∧
        header.dataStart + header.size ≤ archive.data.length) := by
  obtain ⟨stop, hstop, h⟩ := bind_eq_ok.mp h
  obtain ⟨stop', hstop', h⟩ := bind_eq_ok.mp h
  obtain rfl := okOrElse_eq_ok.mp hstop'
  obtain rfl := Except.ok.inj h
  cases inline with
  | true =>
    obtain ⟨contents, hcontents, hstop⟩ := map_eq_ok.mp hstop
    obtain ⟨hstart, hlen, hle⟩ := inlineData_eq_ok hcontents
    obtain ⟨hadd, -⟩ := checkedAdd_eq_some hstop
    rw [hstart, hlen] at hadd
    exact ⟨by omega, fun _ => ⟨by omega, hle⟩⟩
  | false =>
    have hstart := Option.some.inj (Except.ok.inj hstop)
    exact ⟨by omega, nofun⟩

theorem lt_of_nextOffset {inline : Bool} (hheader : archive.headerAt offset = .ok header)
    (h : archive'.nextOffset header inline = .ok next) : offset < next := by
  obtain ⟨-, hstart, -⟩ := headerAt_eq_ok hheader
  have hle := (nextOffset_eq_ok h).1
  rw [hstart, HEADER_SIZE] at hle
  omega

/-! ### Parsing -/

/-- What a header before the first regular member says; whether it is that member. -/
def special (archive : Archive Path) (kind : Option ArchiveKind) (header : Header) (raw : RawName) :
    Except (Malformed Path) (Archive Path × Option ArchiveKind × Bool) :=
  match raw with
  | .symbolIndex =>
    match archive.index with
    | none => do
      let index ← archive.sysvIndex header false
      return ({ archive with index := some index }, some (kind.getD .gnu), false)
    -- The second linker member of a COFF archive.
    | some _ => .ok (archive, some .coff, false)
  | .symbolIndex64 =>
    match archive.index with
    | none => do
      let index ← archive.sysvIndex header true
      return ({ archive with index := some index }, some (kind.getD .gnu), false)
    | some _ => .ok (archive, some (kind.getD .gnu), false)
  | .longNames => do
    let contents ← archive.inlineData header
    return ({ archive with longNames := some contents }, some (kind.getD .gnu), false)
  | .otherSpecial => .ok (archive, kind, false)
  | .bsdName _ | .short _ => do
    let named ← archive.resolveName header raw
    match isBsdSymdef named.1 with
    | none =>
      let dialect : ArchiveKind :=
        match raw with
        | .bsdName _ => .bsd
        | _ => if 0x2f ∈ header.name then .gnu else .bsd
      return (archive, some (kind.getD dialect), true)
    | some is64 =>
      match archive.index with
      | none => do
        let index ← archive.bsdIndex header raw is64
        return ({ archive with index := some index }, some .bsd, false)
      | some _ => return (archive, some .bsd, false)
  | .longName _ => .ok (archive, some (kind.getD .gnu), true)

/-- One header of the loop of `parse`; the offset of the next one, unless the loop ends. -/
def parseNext (archive : Archive Path) (kind : Option ArchiveKind) (offset : ℕ) :
    Except (Malformed Path) (Archive Path × Option ArchiveKind × Option ℕ) := do
  let header ← archive.headerAt offset
  let raw ← archive.rawName header
  let seen ← archive.special kind header raw
  if seen.2.2 then return (seen.1, seen.2.1, none)
  else
    let next ← seen.1.nextOffset header true
    return ({ seen.1 with firstMember := next }, seen.2.1, some next)

theorem special_eq_ok {kind kind' : Option ArchiveKind} {raw : RawName} {stop : Bool}
    (h : archive.special kind header raw = .ok (archive', kind', stop)) :
    archive'.data = archive.data ∧ archive'.path = archive.path ∧ archive'.thin = archive.thin ∧
      archive'.firstMember = archive.firstMember := by
  cases raw with
  | symbolIndex | symbolIndex64 =>
    simp only [special] at h
    split at h
    · obtain ⟨index, -, h⟩ := bind_eq_ok.mp h
      obtain ⟨rfl, -⟩ := Prod.mk.inj (Except.ok.inj h)
      exact ⟨rfl, rfl, rfl, rfl⟩
    · obtain ⟨rfl, -⟩ := Prod.mk.inj (Except.ok.inj h)
      exact ⟨rfl, rfl, rfl, rfl⟩
  | longNames =>
    obtain ⟨contents, -, h⟩ := bind_eq_ok.mp h
    obtain ⟨rfl, -⟩ := Prod.mk.inj (Except.ok.inj h)
    exact ⟨rfl, rfl, rfl, rfl⟩
  | otherSpecial | longName =>
    obtain ⟨rfl, -⟩ := Prod.mk.inj (Except.ok.inj h)
    exact ⟨rfl, rfl, rfl, rfl⟩
  | bsdName | short =>
    obtain ⟨named, -, h⟩ := bind_eq_ok.mp h
    split at h
    · obtain ⟨rfl, -⟩ := Prod.mk.inj (Except.ok.inj h)
      exact ⟨rfl, rfl, rfl, rfl⟩
    · split at h
      · obtain ⟨index, -, h⟩ := bind_eq_ok.mp h
        obtain ⟨rfl, -⟩ := Prod.mk.inj (Except.ok.inj h)
        exact ⟨rfl, rfl, rfl, rfl⟩
      · obtain ⟨rfl, -⟩ := Prod.mk.inj (Except.ok.inj h)
        exact ⟨rfl, rfl, rfl, rfl⟩

theorem parseNext_eq_ok {kind kind' : Option ArchiveKind} {next : Option ℕ}
    (h : archive.parseNext kind offset = .ok (archive', kind', next)) :
    archive'.data = archive.data ∧ archive'.path = archive.path ∧ archive'.thin = archive.thin ∧
      ∀ n, next = some n → offset < n ∧ archive'.firstMember = n := by
  obtain ⟨header, hheader, h⟩ := bind_eq_ok.mp h
  obtain ⟨raw, -, h⟩ := bind_eq_ok.mp h
  obtain ⟨⟨archive₁, kind₁, stop⟩, hspecial, h⟩ := bind_eq_ok.mp h
  obtain ⟨hdata, hpath, hthin, -⟩ := special_eq_ok hspecial
  cases stop with
  | true =>
    obtain ⟨rfl, -, rfl⟩ : archive₁ = archive' ∧ kind₁ = kind' ∧ none = next := by
      simpa using Except.ok.inj h
    exact ⟨hdata, hpath, hthin, nofun⟩
  | false =>
    obtain ⟨n, hn, h⟩ := bind_eq_ok.mp h
    obtain ⟨rfl, hrest⟩ := Prod.mk.inj (Except.ok.inj h)
    obtain ⟨-, rfl⟩ := Prod.mk.inj hrest
    refine ⟨hdata, hpath, hthin, ?_⟩
    rintro _ ⟨⟩
    exact ⟨lt_of_nextOffset hheader hn, rfl⟩

/-- The loop of `parse`. -/
def parseFrom (archive : Archive Path) (kind : Option ArchiveKind) (offset : ℕ) :
    Except (Malformed Path) (Archive Path) :=
  if hlt : offset < archive.data.length then
    match h : archive.parseNext kind offset with
    | .error error => .error error
    | .ok (archive', kind', none) => .ok { archive' with kind := kind'.getD .gnu }
    | .ok (archive', kind', some next) => archive'.parseFrom kind' next
  else .ok { archive with kind := kind.getD .gnu }
termination_by archive.data.length - offset
decreasing_by
  obtain ⟨hdata, -, -, hnext⟩ := parseNext_eq_ok h
  rw [hdata]
  have := (hnext next rfl).1
  omega

/-- Parses the magic, the symbol index and the long-name table. -/
def parse (path : Path) (data : List UInt8) : Except (Malformed Path) (Archive Path) :=
  let archive : Archive Path := ⟨data, path, false, .gnu, none, none, MAGIC_SIZE⟩
  if MAGIC <+: data then archive.parseFrom none MAGIC_SIZE
  else if THIN_MAGIC <+: data then { archive with thin := true }.parseFrom none MAGIC_SIZE
  else .error ⟨path, 0, "archive magic"⟩

/-! ### Members -/

variable (parent : Path → Path)

/-- The regular member whose header starts at an offset. -/
def memberAt (archive : Archive Path) (headerOffset : ℕ) :
    Except (Malformed Path) (Member Path) := do
  let bad := archive.malformed headerOffset "archive member offset in symbol table"
  let offset ← okOrElse (toUsize headerOffset) bad
  if offset < archive.firstMember ∨ archive.data.length ≤ offset then .error bad
  else
    let header ← archive.headerAt offset
    let member ← archive.memberFromHeader parent header
    okOrElse member bad

/-- One header of the walk: its member, if it is a regular one, and the offset of the next. -/
def memberNext (archive : Archive Path) (offset : ℕ) :
    Except (Malformed Path) (Option (Member Path) × ℕ) := do
  let header ← archive.headerAt offset
  let member ← archive.memberFromHeader parent header
  let next ← archive.nextOffset header (!archive.thin || member.isNone)
  return (member, next)

theorem lt_of_memberNext {member : Option (Member Path)}
    (h : archive.memberNext parent offset = .ok (member, next)) : offset < next := by
  obtain ⟨header, hheader, h⟩ := bind_eq_ok.mp h
  obtain ⟨member', -, h⟩ := bind_eq_ok.mp h
  obtain ⟨next', hnext, h⟩ := bind_eq_ok.mp h
  obtain ⟨-, rfl⟩ := Prod.mk.inj (Except.ok.inj h)
  exact lt_of_nextOffset hheader hnext

/-- The walk up to the next regular member; where the one after it is looked for. -/
def step (archive : Archive Path) (offset : ℕ) :
    Except (Malformed Path) (Option (Member Path) × ℕ) :=
  if hlt : offset < archive.data.length then
    match h : archive.memberNext parent offset with
    | .error error => .error error
    | .ok (some member, next) => .ok (some member, next)
    | .ok (none, next) => archive.step next
  else .ok (none, offset)
termination_by archive.data.length - offset
decreasing_by
  have := lt_of_memberNext parent h
  omega

/-- A member that the walk finds has a header at or after the offset. -/
theorem step_eq_ok {member : Member Path} (h : archive.step parent offset = .ok (some member, next))
    :
    ∃ at_, offset ≤ at_ ∧ at_ < archive.data.length ∧
      archive.memberNext parent at_ = .ok (some member, next) := by
  fun_induction archive.step parent offset with
  | case1 => exact nomatch h
  | case2 offset hlt found next' hfound =>
    obtain ⟨rfl, rfl⟩ : found = member ∧ next' = next := by simpa using Except.ok.inj h
    exact ⟨offset, Nat.le_refl _, hlt, hfound⟩
  | case3 offset hlt next' hfound ih =>
    obtain ⟨at_, hle, hrest⟩ := ih h
    have := lt_of_memberNext parent hfound
    exact ⟨at_, by omega, hrest⟩
  | case4 => simp at h

end Archive

/-- An iterator over the regular members. -/
structure Members where
  offset : ℕ
  done : Bool
  deriving DecidableEq, Repr

/-- The next item, and the iterator after it. -/
def Members.next (parent : Path → Path) (archive : Archive Path) (members : Members) :
    Option (Except (Malformed Path) (Member Path)) × Members :=
  if members.done then (none, members)
  else
    match archive.step parent members.offset with
    | .ok (some member, offset) => (some (.ok member), ⟨offset, false⟩)
    | .ok (none, offset) => (none, ⟨offset, true⟩)
    | .error error => (some (.error error), { members with done := true })

/-- How many headers the iterator may still read. -/
def Members.remaining (archive : Archive Path) (members : Members) : ℕ :=
  if members.done then 0 else archive.data.length - members.offset + 1

theorem Members.remaining_next {parent : Path → Path} {archive : Archive Path}
    {members members' : Members} {item : Except (Malformed Path) (Member Path)}
    (h : members.next parent archive = (some item, members')) :
    members'.remaining archive < members.remaining archive := by
  rw [Members.next] at h
  split at h
  · exact nomatch (Prod.mk.inj h).1
  next hgo =>
  have hbefore : members.remaining archive = archive.data.length - members.offset + 1 := by
    rw [remaining, if_neg hgo]
  split at h
  · next member offset hstep =>
    obtain rfl := (Prod.mk.inj h).2
    obtain ⟨at_, hle, hlt, hnext⟩ := Archive.step_eq_ok parent hstep
    have := Archive.lt_of_memberNext parent hnext
    rw [hbefore, remaining, if_neg Bool.false_ne_true]
    simp only
    omega
  · exact nomatch (Prod.mk.inj h).1
  · obtain rfl := (Prod.mk.inj h).2
    rw [hbefore, remaining, if_pos rfl]
    omega

/-- What the iterator yields. -/
def Members.items (parent : Path → Path) (archive : Archive Path) (members : Members) :
    List (Except (Malformed Path) (Member Path)) :=
  match h : members.next parent archive with
  | (none, _) => []
  | (some item, members') => item :: items parent archive members'
termination_by members.remaining archive
decreasing_by exact remaining_next h

/-- The regular members, in archive order; a malformed one ends the list. -/
def Archive.members (parent : Path → Path) (archive : Archive Path) :
    List (Except (Malformed Path) (Member Path)) :=
  Members.items parent archive ⟨archive.firstMember, false⟩

end Qld.Input
