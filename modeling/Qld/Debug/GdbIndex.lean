import Mathlib.Data.Nat.Log
import Mathlib.Data.UInt
import Qld.Lib.Word64
import Qld.Lib.LittleEndian
import Qld.Lib.OpenAddressing

/-!
# The `.gdb_index` section

The model of `debug/gdb_index.rs` and `gdb_hash` of `debug/gdb_index/names.rs`, and of how GDB
looks a name up.  Hashes, values and offsets are `u32`s: natural numbers below `2 ^ 32`.

* `gdbHash` — the hash of a name;
* `createSymbols` — the names of all objects gathered into symbols, with their offsets in the pool;
* `GdbIndex.size`, `GdbIndex.render` — the size of the section, and its bytes;
* `Read.lookup` — what GDB finds for a name.

A `usize` is 64 bits wide.  Shards are gathered in parallel and put together in order.
-/

namespace Qld.Debug.Gdb

open Qld.Lib
open Qld.Lib (wrappingAdd saturatingAdd U64_MAX)

/-! ### Names -/

/-- A name with its hash and its value within its object: kind and static bits, and the index of the
compilation unit in the object below them. -/
structure NameEntry where
  name : List UInt8
  hash : ℕ
  value : ℕ
  deriving DecidableEq, Repr

/-- `u8::to_ascii_lowercase`. -/
def toAsciiLowercase (c : UInt8) : ℕ :=
  if 65 ≤ c.toNat ∧ c.toNat ≤ 90 then c.toNat + 32 else c.toNat

/-- The hash `.gdb_index` uses for names. -/
def gdbHash (name : List UInt8) : ℕ :=
  name.foldl (fun h c => (h * 67 + toAsciiLowercase c + 2 ^ 32 - 113) % 2 ^ 32) 0

/-! ### Symbols -/

/-- One object's contribution. -/
structure Chunk where
  file : ℕ
  info : Option ℕ
  /-- Compilation units: offset in the section and size. -/
  units : List (ℕ × ℕ)
  /-- Address areas: section, low and high offsets in it, and unit index in the object. -/
  areas : List (ℕ × ℕ × ℕ × ℕ)
  deriving DecidableEq, Repr

/-- A name of the symbol table. -/
structure Symbol where
  name : List UInt8
  hash : ℕ
  cuVector : List ℕ
  cuVectorOffset : ℕ
  nameOffset : ℕ
  deriving DecidableEq, Repr

inductive Error where
  | limit
  | internal
  deriving DecidableEq, Repr

/-- `u32::try_from(n).unwrap_or(u32::MAX)`. -/
def toU32 (n : ℕ) : ℕ := if n < 2 ^ 32 then n else 2 ^ 32 - 1

def SHARDS : ℕ := 32

/-- The number of units before each object. -/
def firstUnits : List Chunk → ℕ → List ℕ
  | [], _ => []
  | chunk :: chunks, units =>
    units :: firstUnits chunks ((units + toU32 chunk.units.length) % 2 ^ 32)

/-- The symbols of a shard, and the positions of their names. -/
structure Shard where
  symbols : List Symbol
  index : List (List UInt8 × ℕ)
  deriving DecidableEq, Repr

/-- One name of an object, whose units come after `first` others. -/
def addName (shard first : ℕ) (state : Shard) (entry : NameEntry) : Shard :=
  if entry.hash >>> 27 ≠ shard then state
  else
    let value := (entry.value + first) % 2 ^ 32
    match state.index.lookup entry.name with
    | some at_ =>
      { state with
        symbols := state.symbols.modify at_ fun symbol =>
          { symbol with cuVector := symbol.cuVector ++ [value] } }
    | none =>
      { symbols := state.symbols ++ [⟨entry.name, entry.hash, [value], 0, 0⟩]
        index := (entry.name, state.symbols.length) :: state.index }

/-- The symbols of one shard, in the order in which their names are first seen. -/
def shardSymbols (firsts : List ℕ) (names : List (List NameEntry)) (shard : ℕ) : List Symbol :=
  let state := (names.zip firsts).foldl
    (fun state object => object.1.foldl (addName shard object.2) state) (⟨[], []⟩ : Shard)
  state.symbols

/-- Gives every symbol the offset of something in the pool, and returns the offset behind it all. -/
def assignOffsets (set : Symbol → ℕ → Symbol) (length : Symbol → ℕ) :
    List Symbol → ℕ → Except Error (List Symbol × ℕ)
  | [], offset => .ok ([], offset)
  | symbol :: symbols, offset =>
    if offset < 2 ^ 32 then do
      let (symbols, stop) ← assignOffsets set length symbols (saturatingAdd offset (length symbol))
      return (set symbol offset :: symbols, stop)
    else .error .limit

def setVectorOffset (symbol : Symbol) (offset : ℕ) : Symbol :=
  { symbol with cuVectorOffset := offset }

def setNameOffset (symbol : Symbol) (offset : ℕ) : Symbol := { symbol with nameOffset := offset }

/-- The bytes of a CU vector: its length and its values. -/
def vectorLength (symbol : Symbol) : ℕ := min ((symbol.cuVector.length + 1) * 4) U64_MAX

def nameLength (symbol : Symbol) : ℕ := symbol.name.length + 1

/-- Gives the symbols their offsets in the constant pool, and returns the pool's size. -/
def placeSymbols (symbols : List Symbol) : Except Error (List Symbol × ℕ) := do
  let (symbols, offset) ← assignOffsets setVectorOffset vectorLength symbols 0
  let (symbols, offset) ← assignOffsets setNameOffset nameLength symbols offset
  if offset < 2 ^ 32 then .ok (symbols, offset) else .error .limit

/-- Gathers the names into symbols, in shards by the top five bits of the hash.  Returns them with
their offsets in the constant pool, and the pool's size. -/
def createSymbols (chunks : List Chunk) (names : List (List NameEntry)) :
    Except Error (List Symbol × ℕ) :=
  let firstUnit := firstUnits chunks 0
  placeSymbols ((List.range SHARDS).flatMap (shardSymbols firstUnit names))

/-! ### The section -/

/-- A planned `.gdb_index`. -/
structure GdbIndex where
  chunks : List Chunk
  symbols : List Symbol
  symtabSlots : ℕ
  poolSize : ℕ
  deriving DecidableEq, Repr

def VERSION : ℕ := 8

/-- Header size: six 32-bit words. -/
def HEADER_SIZE : ℕ := 24

/-- `u64::saturating_mul`. -/
def saturatingMul (a b : ℕ) : ℕ := min (a * b) U64_MAX

/-- `u64::checked_next_power_of_two`: the least power of two that is not less. -/
def checkedNextPowerOfTwo (n : ℕ) : Option ℕ :=
  if 2 ^ Nat.clog 2 n < 2 ^ 64 then some (2 ^ Nat.clog 2 n) else none

/-- 4/3 of the names rounded up past a power of two, at least 1024 slots. -/
def symtabSlots (names : ℕ) : ℕ :=
  let wanted := saturatingMul names 4 / 3
  let next := (checkedNextPowerOfTwo (wanted + 1)).getD U64_MAX
  max next 1024

/-- The index of what was read of all objects. -/
def build (chunks : List Chunk) (names : List (List NameEntry)) : Except Error GdbIndex := do
  let (symbols, poolSize) ← createSymbols chunks names
  return ⟨chunks, symbols, symtabSlots symbols.length, poolSize⟩

/-- The first slot that is tried for a hash. -/
def firstSlot (mask hash : ℕ) : ℕ := hash &&& mask

/-- How far it is to the next slot that is tried. -/
def slotStep (mask hash : ℕ) : ℕ := (hash * 17 % 2 ^ 32 &&& mask) ||| 1

/-- The next slot that is tried. -/
def nextSlot (mask hash i : ℕ) : ℕ := (i + slotStep mask hash) % 2 ^ 32 &&& mask

/-- Puts the symbols into the table: offsets of names and of CU vectors.  `fuel` bounds the slots
that are tried for one of them. -/
def insertSymbols (mask fuel : ℕ) : List Symbol → List (ℕ × ℕ) → Option (List (ℕ × ℕ))
  | [], table => some table
  | symbol :: symbols, table => do
    let i ← seek (fun i => !table[i]?.any fun slot => slot.1 != 0) (nextSlot mask symbol.hash) fuel
      (firstSlot mask symbol.hash)
    insertSymbols mask fuel symbols (table.set i (symbol.nameOffset, symbol.cuVectorOffset))

/-- The address areas of objects, whose units come after `preceding` others. -/
def areaBytes (address : ℕ → ℕ → Option ℕ) : List Chunk → ℕ → List UInt8
  | [], _ => []
  | chunk :: chunks, preceding =>
    (chunk.areas.flatMap fun (section_, low, high, unit) =>
      let base := (address chunk.file section_).getD 0
      leBytes 8 (wrappingAdd base low) ++ leBytes 8 (wrappingAdd base high) ++
        leBytes 4 ((unit + preceding) % 2 ^ 32)) ++
      areaBytes address chunks ((preceding + toU32 chunk.units.length) % 2 ^ 32)

/-- A CU vector in the pool. -/
def vectorBytes (symbol : Symbol) : List UInt8 :=
  leBytes 4 (if symbol.cuVector.length < 2 ^ 32 then symbol.cuVector.length else 0) ++
    symbol.cuVector.flatMap (leBytes 4)

/-- A name in the pool. -/
def nameBytes (symbol : Symbol) : List UInt8 := symbol.name ++ [0]

namespace GdbIndex

/-- The size of the section. -/
def size (index : GdbIndex) : ℕ :=
  let units := (index.chunks.map fun chunk => chunk.units.length).sum
  let areas := (index.chunks.map fun chunk => chunk.areas.length).sum
  saturatingAdd
    (saturatingAdd
      (saturatingAdd (saturatingAdd HEADER_SIZE (saturatingMul units 16)) (saturatingMul areas 20))
      (saturatingMul index.symtabSlots 8))
    index.poolSize

/-- The compilation unit list. -/
def unitBytes (index : GdbIndex) (infoOffset : ℕ → ℕ → Option ℕ) : List UInt8 :=
  index.chunks.flatMap fun chunk =>
    let base := (chunk.info.bind (infoOffset chunk.file)).getD 0
    chunk.units.flatMap fun (offset, length) =>
      leBytes 8 (wrappingAdd base offset) ++ leBytes 8 length

/-- The constant pool: CU vectors, and then names. -/
def poolBytes (index : GdbIndex) : List UInt8 :=
  index.symbols.flatMap vectorBytes ++ index.symbols.flatMap nameBytes

/-- Writes the section; nothing if the loop over a symbol's slots does not end. -/
def render (index : GdbIndex) (infoOffset address : ℕ → ℕ → Option ℕ) :
    Option (Except Error (List UInt8)) := do
  let size := index.size
  let units := index.unitBytes infoOffset
  let areas := areaBytes address index.chunks 0
  let slots := index.symtabSlots
  let mask := toU32 (slots - 1)
  let table ← insertSymbols mask slots index.symbols (List.replicate slots (0, 0))
  let symtab := table.flatMap fun slot => leBytes 4 slot.1 ++ leBytes 4 slot.2
  -- The header holds where each part starts.
  let header := [VERSION, toU32 HEADER_SIZE, toU32 (HEADER_SIZE + units.length),
    toU32 (HEADER_SIZE + units.length), toU32 (HEADER_SIZE + units.length + areas.length),
    toU32 (HEADER_SIZE + units.length + areas.length + symtab.length)]
  let out := header.flatMap (leBytes 4) ++ units ++ areas ++ symtab ++ index.poolBytes
  return if out.length ≠ size then .error .internal else .ok out

end GdbIndex

/-! ### GDB -/

namespace Read

/-- A word of the section. -/
def word (data : List UInt8) (pos : ℕ) : Option ℕ := readLe 4 data pos

/-- A slot of the table at `symtab`: the offsets of a name and of its CU vector. -/
def slotAt (data : List UInt8) (symtab i : ℕ) : Option (ℕ × ℕ) := do
  let name ← word data (symtab + i * 8)
  let vector ← word data (symtab + i * 8 + 4)
  return (name, vector)

/-- `strcmp` of a name and the string at a position. -/
def sameString (data : List UInt8) (pos : ℕ) (name : List UInt8) : Bool :=
  (name ++ [0]).isPrefixOf (data.drop pos)

/-- A number of words. -/
def words (data : List UInt8) : ℕ → ℕ → Option (List ℕ)
  | _, 0 => some []
  | pos, count + 1 => do
    let value ← word data pos
    let rest ← words data (pos + 4) count
    return value :: rest

/-- A CU vector: its length and its values. -/
def vectorAt (data : List UInt8) (pos : ℕ) : Option (List ℕ) := do
  let count ← word data pos
  words data (pos + 4) count

/-- The search for a name ends at an empty slot, or at one with the name. -/
def stops (data : List UInt8) (symtab pool : ℕ) (name : List UInt8) (i : ℕ) : Bool :=
  (slotAt data symtab i).all fun slot =>
    slot == (0, 0) || sameString data (pool + slot.1) name

/-- The CU vector of a name, if the table has it; nothing if the section cannot be read, or the
search does not end. -/
def lookup (data : List UInt8) (name : List UInt8) : Option (Option (List ℕ)) := do
  let symtab ← word data 16
  let pool ← word data 20
  let slots := (pool - symtab) / 8
  let mask := slots - 1
  let hash := gdbHash name
  let i ← seek (stops data symtab pool name) (fun i => (i + slotStep mask hash) &&& mask) slots
    (firstSlot mask hash)
  let slot ← slotAt data symtab i
  if slot = (0, 0) then return none
  else return some (← vectorAt data (pool + slot.2))

end Read

end Qld.Debug.Gdb
