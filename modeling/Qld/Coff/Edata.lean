import Qld.Lib.Except
import Qld.Lib.LittleEndian

/-!
# The export directory

The export table of a PE image, after `coff/edata.rs`, with the names of `coff/machine.rs`.  Names are
byte strings; `u16` ordinals and `u32` sizes and addresses are natural numbers with the source's
saturation written out.

* `Request`, `Symbol`, `Options` — what is asked for, what is defined, and how;
* `collectRequests`, `collectAll`, `entries` — the exports, sorted by name, each name once;
* `nextFree`, `assignOrdinals`, `plan` — ordinals for those without one;
* `Exports.size`, `Exports.render` — the section.
-/

namespace Qld.Coff.Edata

open Qld.Lib

abbrev Name : Type := List UInt8

def U32_MAX : ℕ := 2 ^ 32 - 1
def U16_MAX : ℕ := 2 ^ 16 - 1

/-- `u32::saturating_add`. -/
def add32 (a b : ℕ) : ℕ := min (a + b) U32_MAX

/-- `u32::saturating_mul`. -/
def mul32 (a b : ℕ) : ℕ := min (a * b) U32_MAX

/-- `u32::try_from(n).unwrap_or(0)`. -/
def u32OrZero (n : ℕ) : ℕ := if n < 2 ^ 32 then n else 0

/-! ### What is exported -/

/-- One export a directive or a `.def` file asks for. -/
structure Request where
  name : Name
  /-- `name=internal`: the symbol the export refers to. -/
  internal : Option Name
  /-- `name=dll.function`. -/
  forwarder : Option Name
  ordinal : Option UInt16
  noname : Bool
  data : Bool
  privateExport : Bool
  deriving DecidableEq, Repr

/-- The symbol a request refers to. -/
def Request.symbol (r : Request) : Name := r.internal.getD r.name

/-- One symbol the image exports. -/
structure Export where
  name : Name
  symbol : Option Name
  forwarder : Option Name
  ordinal : ℕ
  noname : Bool
  data : Bool
  privateExport : Bool
  deriving DecidableEq, Repr

/-- A symbol of the link. -/
structure Symbol where
  name : Name
  /-- Its definition is a regular one. -/
  regular : Bool
  /-- The file of its definition takes part in the link. -/
  live : Bool
  /-- Whether the object's global is data; `none` without an object or a global. -/
  global : Option Bool
  /-- The file of its definition belongs to the C runtime or a support library. -/
  runtime : Bool
  deriving Repr

structure Options where
  /-- C names are decorated with an underscore (i386). -/
  underscores : Bool
  dll : Bool
  killAt : Bool
  addStdcallAlias : Bool
  enableStdcallFixup : Option Bool
  exportAllSymbols : Bool
  excludeAllSymbols : Bool
  excludeSymbols : List Name
  deriving Repr

inductive Diagnostic where
  /-- A symbol resolved by linking to its stdcall twin, with or without the advice. -/
  | warning (wanted twin : Name) (advice : Bool)
  /-- An exported symbol that is not defined. -/
  | error (symbol : Name)
  deriving DecidableEq, Repr

/-! ### Names -/

def AT : UInt8 := 64

def isDigit (b : UInt8) : Bool := 48 ≤ b && b ≤ 57

/-- `text.parse::<u32>()` of decimal digits. -/
def parseU32 (digits : Name) : Option ℕ :=
  let value := digits.foldl (fun n d => n * 10 + (d.toNat - 48)) 0
  if value < 2 ^ 32 then some value else none

/-- Splits a stdcall or fastcall name into its body and its `@N` suffix. -/
def splitStdcall (name : Name) : Name × Option ℕ :=
  if name.head? = some 63 then (name, none)
  else
    let digits := (name.reverse.takeWhile (· ≠ AT)).reverse
    let body := (name.reverse.dropWhile (· ≠ AT)).tail.reverse
    if AT ∈ name ∧ body ≠ [] ∧ digits ≠ [] ∧ digits.all isDigit then
      match parseU32 digits with
      | some value => (body, some value)
      | none => (name, none)
    else (name, none)

/-- The name without its `@N` suffix and the leading `@` of a fastcall name. -/
def killAt (name : Name) : Name :=
  match splitStdcall name with
  | (body, some _) => if body.head? = some AT then body.tail else body
  | (_, none) => name

def maybeKillAt (name : Name) (kill : Bool) : Name := if kill then killAt name else name

/-- `--add-stdcall-alias`: the undecorated second name. -/
def stdcallAlias (name : Name) (pe : Options) : Option Name :=
  if !pe.addStdcallAlias || pe.killAt then none
  else if killAt name ≠ name then some (killAt name) else none

def decorate (pe : Options) (name : Name) : Name :=
  if pe.underscores ∧ name.head? ≠ some AT ∧ name.head? ≠ some 63 then 95 :: name else name

def undecorate (pe : Options) (name : Name) : Name :=
  if pe.underscores ∧ name.head? = some 95 then name.tail else name

def isDefined (symbols : List Symbol) (name : Name) : Bool :=
  (symbols.find? (·.name == name)).any (·.regular)

/-- The defined stdcall twin of a name. -/
def stdcallTwin (symbols : List Symbol) (name : Name) : Option Name :=
  if name.head? = some 63 then none
  else
    let leadAt := name.head? = some AT
    if leadAt ∨ AT ∈ name.tail then
      let cdecl := (if leadAt then 95 :: name.tail else name).takeWhile (· ≠ AT)
      if isDefined symbols cdecl then some cdecl else none
    else
      (symbols.map Symbol.name).foldl (fun best candidate =>
        if name <+: candidate ∧ (candidate.drop name.length).head? = some AT ∧
            isDefined symbols candidate ∧ best.all (fun current => compare candidate current = .lt)
        then some candidate else best) none

/-! ### Exports -/

/-- What has been collected, and whether the fixup warning was given. -/
structure Collected where
  entries : List Export
  warned : Bool
  diagnostics : List Diagnostic

/-- `Fixups::resolve`: the symbol an export refers to. -/
def resolve (symbols : List Symbol) (pe : Options) (state : Collected) (wanted : Name) :
    Name × Collected :=
  if !pe.underscores || pe.enableStdcallFixup = some false || isDefined symbols wanted then
    (wanted, state)
  else
    match stdcallTwin symbols wanted with
    | none => (wanted, state)
    | some twin =>
      if pe.enableStdcallFixup.isNone then
        (twin, { state with
          warned := true
          diagnostics := state.diagnostics ++ [.warning wanted twin !state.warned] })
      else (twin, state)

/-- One request; a private one is not exported. -/
def collectRequest (symbols : List Symbol) (pe : Options) (state : Collected) (request : Request) :
    Collected :=
  if request.privateExport then state
  else
    let resolved := match request.forwarder with
      | some _ => (none, state)
      | none =>
        let r := resolve symbols pe state (decorate pe request.symbol)
        (some r.1, r.2)
    let name := maybeKillAt request.name pe.killAt
    let entry : Export := ⟨name, resolved.1, request.forwarder,
      (request.ordinal.getD 0).toNat, request.noname, request.data, request.privateExport⟩
    let second := (stdcallAlias name pe).toList.map fun short =>
      { entry with name := short, ordinal := 0 }
    { resolved.2 with entries := resolved.2.entries ++ second ++ [entry] }

def collectRequests (symbols : List Symbol) (pe : Options) (requests : List Request) : Collected :=
  requests.foldl (collectRequest symbols pe) ⟨[], false, []⟩

def EXACT : List Name := ["DllMain@12", "DllEntryPoint@0", "DllMainCRTStartup@12",
  "_cygwin_dll_entry@12", "_cygwin_crt0_common@8", "_cygwin_noncygwin_dll_entry@12",
  "cygwin_attach_dll", "cygwin_premain0", "cygwin_premain1", "cygwin_premain2", "cygwin_premain3",
  "do_pseudo_reloc", "_NULL_IMPORT_DESCRIPTOR", "DllMain", "DllMainCRTStartup", "DllEntryPoint",
  "impure_ptr", "_cygwin_dll_entry", "_cygwin_crt0_common", "_cygwin_noncygwin_dll_entry",
  "__dso_handle", "_pei386_runtime_relocator", "mainCRTStartup", "WinMainCRTStartup", "_tls_used",
  "_load_config_used"].map ascii

def PREFIXES : List Name := ["__imp_", "_imp_", "__rtti_", "__builtin_", "_head_", "__CTOR_LIST__",
  "__DTOR_LIST__", "___CTOR_LIST__", "___DTOR_LIST__", "___crt_x", "__RUNTIME_PSEUDO_RELOC_LIST",
  "___RUNTIME_PSEUDO_RELOC_LIST", "__ImageBase", "___ImageBase", "__image_base__", "."].map ascii

def SUFFIXES : List Name := ["_iname", "_NULL_THUNK_DATA"].map ascii

/-- Whether `--export-all-symbols` skips a name. -/
def isFiltered (name : Name) : Bool :=
  EXACT.contains name || PREFIXES.any (·.isPrefixOf name) || SUFFIXES.any (·.isSuffixOf name)

/-- One symbol of the link under `--export-all-symbols`. -/
def collectSymbol (symbols : List Symbol) (pe : Options) (entries : List Export) (symbol : Symbol) :
    List Export :=
  match symbol.global with
  | none => entries
  | some data =>
    let name := undecorate pe symbol.name
    if !symbol.regular || !symbol.live || symbol.runtime ||
        isDefined symbols (ascii "__imp_" ++ symbol.name) || isFiltered name ||
        pe.excludeSymbols.contains name || entries.any (·.name == name) then entries
    else
      let entry : Export :=
        ⟨maybeKillAt name pe.killAt, some symbol.name, none, 0, false, data, false⟩
      entries ++ (stdcallAlias entry.name pe).toList.map (fun short => { entry with name := short }) ++
        [entry]

def exportAll (pe : Options) (entries : List Export) : Bool :=
  !pe.excludeAllSymbols && (pe.exportAllSymbols || (pe.dll && entries.isEmpty))

/-- Everything exported, in order of appearance. -/
def collect (requests : List Request) (symbols : List Symbol) (pe : Options) : Collected :=
  let requested := collectRequests symbols pe requests
  if exportAll pe requested.entries then
    { requested with entries := symbols.foldl (collectSymbol symbols pe) requested.entries }
  else requested

def nameLe (a b : Export) : Bool := (compare a.name b.name).isLE

/-- `dedup_by`: the first of each run of equal names. -/
def dedupName : List Export → List Export
  | [] => []
  | [e] => [e]
  | e :: f :: rest => if f.name = e.name then dedupName (e :: rest) else e :: dedupName (f :: rest)
termination_by l => l.length

/-- The exports, sorted by name, each name once. -/
def entries (requests : List Request) (symbols : List Symbol) (pe : Options) : List Export :=
  dedupName ((collect requests symbols pe).entries.mergeSort nameLe)

/-! ### Ordinals -/

/-- The counter after one step: `u16::saturating_add(1)`. -/
def succ16 (next : ℕ) : ℕ := min (next + 1) U16_MAX

/-- The first ordinal from `next` on that is not used.  At 65535 the counter stays, so a used 65535 is
tested forever: `none`. -/
def nextFree (used : List ℕ) (next : ℕ) : Option ℕ :=
  if next ∉ used then some next
  else if U16_MAX ≤ next then none
  else nextFree used (next + 1)
termination_by U16_MAX - next

/-- Gives every export without an ordinal the lowest free one; `none` when it loops forever. -/
def assignFrom (used : List ℕ) : ℕ → List Export → Option (List Export)
  | _, [] => some []
  | next, e :: rest =>
    if e.ordinal ≠ 0 then do
      return e :: (← assignFrom used next rest)
    else do
      let free ← nextFree used next
      return { e with ordinal := free } :: (← assignFrom used (succ16 free) rest)

def usedOrdinals (l : List Export) : List ℕ := (l.filter (·.ordinal ≠ 0)).map Export.ordinal

def assignOrdinals (l : List Export) : Option (List Export) := assignFrom (usedOrdinals l) 1 l

/-- The export table of an image. -/
structure Exports where
  entries : List Export
  dllName : Name
  ordinalBase : ℕ

/-- Builds the export table; `none` when it loops forever. -/
def plan (requests : List Request) (symbols : List Symbol) (pe : Options) (dllName : Name) :
    Option (Exports × List Diagnostic) := do
  let assigned ← assignOrdinals (entries requests symbols pe)
  return (⟨assigned, dllName, (assigned.map Export.ordinal).min?.getD 1⟩,
    (collect requests symbols pe).diagnostics)

/-! ### The section -/

def EXPORT_DIRECTORY_SIZE : ℕ := 40

/-- The size of a NUL-terminated string. -/
def stringSize (text : Name) : ℕ := add32 (u32OrZero text.length) 1

namespace Exports

variable (x : Exports)

def highestOrdinal : ℕ := (x.entries.map Export.ordinal).max?.getD x.ordinalBase

/-- One export address table slot for each ordinal in range. -/
def addressSlots : ℕ :=
  if x.entries.isEmpty then 0 else add32 (x.highestOrdinal - x.ordinalBase) 1

/-- The exports that have a name in the name pointer table. -/
def named : List Export := x.entries.filter fun e => !e.noname

def forwarders : List Name := x.entries.filterMap Export.forwarder

def nameCount : ℕ := u32OrZero x.named.length

/-- The size of the section. -/
def size : ℕ :=
  if x.entries.isEmpty then 0
  else
    let strings := (x.named.map (fun e => stringSize e.name) ++ x.forwarders.map stringSize).foldl
      add32 (stringSize x.dllName)
    add32 (add32 (add32 (add32 EXPORT_DIRECTORY_SIZE (mul32 x.addressSlots 4)) (mul32 x.nameCount 4))
      (mul32 x.nameCount 2)) strings

/-- `push_string`: where the string stands, and the strings with it. -/
def pushString (stringsRva : ℕ) (strings text : List UInt8) : ℕ × List UInt8 :=
  (add32 stringsRva (u32OrZero strings.length), strings ++ text ++ [0])

/-- The value of an export's slot, the strings and the problems after it.  `byName` is the address of
a symbol. -/
def slotValue (byName : Name → Option UInt32) (stringsRva : ℕ) (strings : List UInt8) (e : Export) :
    ℕ × List UInt8 × List Diagnostic :=
  match e.forwarder, e.symbol with
  | some forwarder, _ =>
    let pushed := pushString stringsRva strings forwarder
    (pushed.1, pushed.2, [])
  | none, some symbol =>
    match byName symbol with
    | some rva => (rva.toNat, strings, [])
    | none => (0, strings, [.error symbol])
  | none, none => (0, strings, [])

/-- `u16::wrapping_sub`: the slot of an ordinal. -/
def slotOf (ordinal : ℕ) : ℕ := (ordinal + 2 ^ 16 - x.ordinalBase) % 2 ^ 16

/-- The export address table and the strings after it. -/
def fillSlots (byName : Name → Option UInt32) (stringsRva : ℕ) :
    List Export → List ℕ → List UInt8 → List ℕ × List UInt8 × List Diagnostic
  | [], eat, strings => (eat, strings, [])
  | e :: rest, eat, strings =>
    let value := slotValue byName stringsRva strings e
    let filled := fillSlots byName stringsRva rest (eat.set (x.slotOf e.ordinal) value.1) value.2.1
    (filled.1, filled.2.1, value.2.2 ++ filled.2.2)

/-- The name pointers, and the strings after them. -/
def namePointers (stringsRva : ℕ) : List Export → List UInt8 → List ℕ × List UInt8
  | [], strings => ([], strings)
  | e :: rest, strings =>
    let pushed := pushString stringsRva strings e.name
    let pointers := namePointers stringsRva rest pushed.2
    (pushed.1 :: pointers.1, pointers.2)

def eatRva (rva : ℕ) : ℕ := add32 rva EXPORT_DIRECTORY_SIZE
def nameTableRva (rva : ℕ) : ℕ := add32 (eatRva rva) (mul32 x.addressSlots 4)
def ordinalTableRva (rva : ℕ) : ℕ := add32 (x.nameTableRva rva) (mul32 x.nameCount 4)
def stringsRva (rva : ℕ) : ℕ := add32 (x.ordinalTableRva rva) (mul32 x.nameCount 2)

/-- The contents of the section at an address, and what is reported. -/
def render (byName : Name → Option UInt32) (rva : ℕ) : List UInt8 × List Diagnostic :=
  if x.entries.isEmpty then ([], [])
  else
    let dll := pushString (x.stringsRva rva) [] x.dllName
    let filled := x.fillSlots byName (x.stringsRva rva) x.entries
      (List.replicate x.addressSlots 0) dll.2
    let pointers := namePointers (x.stringsRva rva) x.named filled.2.1
    (leBytes 4 0 ++ leBytes 4 0 ++ leBytes 2 0 ++ leBytes 2 0 ++ leBytes 4 dll.1 ++
      leBytes 4 x.ordinalBase ++ leBytes 4 x.addressSlots ++ leBytes 4 x.nameCount ++
      leBytes 4 (eatRva rva) ++ leBytes 4 (x.nameTableRva rva) ++ leBytes 4 (x.ordinalTableRva rva) ++
      filled.1.flatMap (leBytes 4) ++ pointers.1.flatMap (leBytes 4) ++
      x.named.flatMap (fun e => leBytes 2 (x.slotOf e.ordinal)) ++ pointers.2, filled.2.2)

end Exports

end Qld.Coff.Edata
