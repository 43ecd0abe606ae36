import Qld.Macho.Fixups
import Qld.Macho.Sleb

/-!
# Rebase and bind opcodes

The model of `opcodes` and `weak_bind_opcodes` of `macho/fixups.rs`: the legacy form of fixups, which
keeps plain pointers in the image and describes them with the opcode streams of
`LC_DYLD_INFO_ONLY`.  An opcode is left out when the register of the interpreter has its value.

* `rebaseAt`, `bindAt` — the opcodes of one fixup, and the word of the image;
* `addFixup`, `addFixups` — the fixups in address order;
* `weakBindOpcodes` — the weak binding stream, sorted by name;
* `opcodes` — all streams.
-/

namespace Qld.Macho

open Qld.Lib

/-! ### Constants -/

def REBASE_TYPE_POINTER : ℕ := 1
def REBASE_OPCODE_DONE : ℕ := 0x00
def REBASE_OPCODE_SET_TYPE_IMM : ℕ := 0x10
def REBASE_OPCODE_SET_SEGMENT_AND_OFFSET_ULEB : ℕ := 0x20
def REBASE_OPCODE_ADD_ADDR_ULEB : ℕ := 0x30
def REBASE_OPCODE_DO_REBASE_IMM_TIMES : ℕ := 0x50
def REBASE_OPCODE_DO_REBASE_ULEB_TIMES : ℕ := 0x60
def BIND_TYPE_POINTER : ℕ := 1
def BIND_SYMBOL_FLAGS_WEAK_IMPORT : ℕ := 0x1
def BIND_OPCODE_DONE : ℕ := 0x00
def BIND_OPCODE_SET_DYLIB_ORDINAL_IMM : ℕ := 0x10
def BIND_OPCODE_SET_DYLIB_ORDINAL_ULEB : ℕ := 0x20
def BIND_OPCODE_SET_DYLIB_SPECIAL_IMM : ℕ := 0x30
def BIND_OPCODE_SET_SYMBOL_TRAILING_FLAGS_IMM : ℕ := 0x40
def BIND_OPCODE_SET_TYPE_IMM : ℕ := 0x50
def BIND_OPCODE_SET_ADDEND_SLEB : ℕ := 0x60
def BIND_OPCODE_SET_SEGMENT_AND_OFFSET_ULEB : ℕ := 0x70
def BIND_OPCODE_DO_BIND : ℕ := 0x90

/-- The ordinal of a symbol that dyld looks for in all images. -/
def BIND_SPECIAL_DYLIB_WEAK_LOOKUP : ℤ := -3

/-! ### Streams -/

/-- An opcode with its immediate. -/
def opcode (op imm : ℕ) : UInt8 := UInt8.ofNat (op ||| imm)

/-- The opcode streams of `LC_DYLD_INFO_ONLY`. -/
structure Opcodes where
  rebase : List UInt8
  bind : List UInt8
  weakBind : List UInt8
  deriving DecidableEq, Repr

/-- An entry of the weak binding stream. -/
structure WeakEntry where
  name : List UInt8
  segment : ℕ
  offset : ℕ
  addend : ℤ
  deriving DecidableEq, Repr

/-- The streams as they are written. -/
structure Streams where
  rebase : List UInt8
  rebaseStarted : Bool
  bind : List UInt8
  /-- The ordinal, the import and the addend of the last bind. -/
  current : Option (ℤ × ℕ × ℤ)
  weak : List WeakEntry
  image : List UInt8

/-- What goes wrong with opcodes. -/
inductive OpcodeError where
  | text (message : String)
  /-- `weak binding of {name} without a definition`. -/
  | weakWithoutDefinition (name : List UInt8)
  deriving DecidableEq, Repr

/-- The rebase of a pointer, which gets its unslid target. -/
def rebaseAt (s : Streams) (x : Located) (target : ℕ) : Except OpcodeError Streams := do
  let image ← okOrElse (putLe 8 s.image x.file target) (.text "fixup outside the output")
  let start := if s.rebaseStarted then []
    else [opcode REBASE_OPCODE_SET_TYPE_IMM REBASE_TYPE_POINTER]
  return { s with
    rebase := s.rebase ++ start ++ [opcode REBASE_OPCODE_SET_SEGMENT_AND_OFFSET_ULEB x.segment] ++
      pushUleb x.offset ++ [opcode REBASE_OPCODE_DO_REBASE_IMM_TIMES 1]
    rebaseStarted := true
    image := image }

/-- The opcodes that set the ordinal. -/
def ordinalOpcodes (ordinal : ℤ) : List UInt8 :=
  if 0 ≤ ordinal ∧ ordinal ≤ 15 then
    [opcode BIND_OPCODE_SET_DYLIB_ORDINAL_IMM (asU64 ordinal % 2 ^ 8)]
  else if 15 < ordinal then opcode BIND_OPCODE_SET_DYLIB_ORDINAL_ULEB 0 :: pushUleb (asU64 ordinal)
  else [opcode BIND_OPCODE_SET_DYLIB_SPECIAL_IMM (asU64 ordinal % 2 ^ 8 &&& 0x0f)]

/-- The opcodes that set a symbol. -/
def symbolOpcodes (flags : ℕ) (name : List UInt8) : List UInt8 :=
  [opcode BIND_OPCODE_SET_SYMBOL_TRAILING_FLAGS_IMM flags] ++ name ++ [0]

def addendOpcodes (addend : ℤ) : List UInt8 :=
  opcode BIND_OPCODE_SET_ADDEND_SLEB 0 :: pushSleb addend

/-- The opcodes that bind at a place. -/
def placeOpcodes (segment offset : ℕ) : List UInt8 :=
  [opcode BIND_OPCODE_SET_SEGMENT_AND_OFFSET_ULEB segment] ++ pushUleb offset ++
    [opcode BIND_OPCODE_DO_BIND 0]

/-- The opcodes of a bind, after another one. -/
def bindOpcodes (current : Option (ℤ × ℕ × ℤ)) (x : Located) (symbol : ℕ) (entry : Import)
    (addend : ℤ) : List UInt8 :=
  (if current.map (fun c => c.1) ≠ some entry.ordinal then ordinalOpcodes entry.ordinal else []) ++
    (if current.any fun c => c.2.1 = symbol then []
      else symbolOpcodes (if entry.weak then BIND_SYMBOL_FLAGS_WEAK_IMPORT else 0) entry.name ++
        if current.isNone then [opcode BIND_OPCODE_SET_TYPE_IMM BIND_TYPE_POINTER] else []) ++
    (if current.map (fun c => c.2.2) ≠ some addend then addendOpcodes addend else []) ++
    placeOpcodes x.segment x.offset

/-- The bind of a pointer, which gets `0`. -/
def bindAt (s : Streams) (x : Located) (symbol : ℕ) (entry : Import) (addend : ℤ) :
    Except OpcodeError Streams := do
  let image ← okOrElse (putLe 8 s.image x.file 0) (.text "fixup outside the output")
  return { s with
    bind := s.bind ++ bindOpcodes s.current x symbol entry addend
    current := some (entry.ordinal, symbol, addend)
    image := image }

/-- Finds a fixup in the image. -/
def locateOpcodes (layout : Layout) (fixup : Fixup) : Except OpcodeError Located :=
  match locate layout fixup with
  | .error message => .error (.text message)
  | .ok x => if x.segment < 16 then .ok x else .error (.text "fixup in segment 16 or later")

/-- Adds a fixup to the streams. -/
def addFixup (layout : Layout) (imports : List Import) (weakTargets : List (Option ℕ))
    (s : Streams) (fixup : Fixup) : Except OpcodeError Streams := do
  let x ← locateOpcodes layout fixup
  match fixup.kind with
  | .rebase target => rebaseAt s x target
  | .bind symbol addend =>
    let entry ← okOrElse imports[symbol]? (.text "import index out of range")
    if entry.ordinal = BIND_SPECIAL_DYLIB_WEAK_LOOKUP then
      let target ← okOrElse weakTargets[symbol]?.join (.weakWithoutDefinition entry.name)
      rebaseAt { s with weak := s.weak ++ [⟨entry.name, x.segment, x.offset, addend⟩] } x
        ((target + asU64 addend) % 2 ^ 64)
    else bindAt s x symbol entry addend

/-- Adds fixups to the streams, in order. -/
def addFixups (layout : Layout) (imports : List Import) (weakTargets : List (Option ℕ)) :
    List Fixup → Streams → Except OpcodeError Streams
  | [], s => .ok s
  | fixup :: fixups, s => do
    let s ← addFixup layout imports weakTargets s fixup
    addFixups layout imports weakTargets fixups s

/-! ### Weak binding -/

/-- The order of tuples of a name, a segment, an offset and an addend. -/
def weakLe (a b : WeakEntry) : Bool :=
  a.name < b.name || (a.name = b.name && (a.segment < b.segment || (a.segment = b.segment &&
    (a.offset < b.offset || (a.offset = b.offset && a.addend ≤ b.addend)))))

/-- The opcodes of an entry, after those of another name and addend. -/
def weakEntryOpcodes (current : Option (List UInt8 × ℤ)) (entry : WeakEntry) : List UInt8 :=
  (if current.map (fun c => c.1) ≠ some entry.name then symbolOpcodes 0 entry.name else []) ++
    (if current.map (fun c => c.2) ≠ some entry.addend then addendOpcodes entry.addend else []) ++
    placeOpcodes entry.segment entry.offset

/-- The opcodes of all entries. -/
def weakEntriesOpcodes : Option (List UInt8 × ℤ) → List WeakEntry → List UInt8
  | _, [] => []
  | current, entry :: entries =>
    weakEntryOpcodes current entry ++ weakEntriesOpcodes (some (entry.name, entry.addend)) entries

/-- The weak binding stream. -/
def weakBindOpcodes (entries : List WeakEntry) : List UInt8 :=
  if entries.isEmpty then []
  else
    pad8 ([opcode BIND_OPCODE_SET_TYPE_IMM BIND_TYPE_POINTER] ++
      weakEntriesOpcodes none (entries.mergeSort weakLe) ++ [opcode BIND_OPCODE_DONE 0])

/-! ### All streams -/

/-- The opcode streams, and the image with its plain pointers. -/
def opcodes (layout : Layout) (fixups : List Fixup) (imports : List Import)
    (weakTargets : List (Option ℕ)) (image : List UInt8) :
    Except OpcodeError (Opcodes × List UInt8) := do
  let s ← addFixups layout imports weakTargets
    (fixups.mergeSort fun a b => a.address ≤ b.address) ⟨[], false, [], none, [], image⟩
  return (⟨if s.rebaseStarted then pad8 (s.rebase ++ [opcode REBASE_OPCODE_DONE 0]) else s.rebase,
    if s.current.isSome then pad8 (s.bind ++ [opcode BIND_OPCODE_DONE 0]) else s.bind,
    weakBindOpcodes s.weak⟩, s.image)

end Qld.Macho
