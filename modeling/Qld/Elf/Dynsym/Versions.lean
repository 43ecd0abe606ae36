import Mathlib.Data.List.Destutter
import Qld.Elf.Dynsym.Hash
import Qld.Lib.BinarySearch
import Qld.Symbols.Definition

/-!
# Symbol versions

The model of the version tables of `plan_chosen`, from the choice of entries to the bytes of
`.gnu.version_r` and `.gnu.version_d`, for a dynamic output.  What the planner asks the rest of the
link is in `PlanInput`.

* `Need`, `needList`, `needIndex` — the versions that are needed, and their indices;
* `versym` — `.gnu.version`; `putVerneed`, `putVerdef` — the two record tables;
* `planChosen` — the plan, with its string table and its hash tables.
-/

namespace Qld.Elf.Dynsym

open Qld.Lib Qld.Symbols

def U16_MAX : ℕ := 65535

def VER_NDX_GLOBAL : ℕ := 1

def VER_FLG_BASE : ℕ := 1

/-- A needed version: the library's file, and the version's name. -/
structure Need where
  file : ℕ
  version : List UInt8
  deriving DecidableEq

/-- The order of needed versions: by file, then by name. -/
def Need.cmp : Need → Need → Ordering :=
  compareLex (compareOn Need.file) (compareOn Need.version)

instance : Ord Need := ⟨Need.cmp⟩

/-- One version definition of a shared object output. -/
structure VersionDef where
  name : List UInt8
  parents : List (List UInt8)

/-- The tables of a plan. -/
structure DynamicPlan where
  entries : List Entry
  gnu_hash : List UInt8
  sysv_hash : List UInt8
  versym : List ℕ
  verneed : List UInt8
  verneed_count : ℕ
  verdef : List UInt8
  verdef_count : ℕ
  dynstr : List UInt8

def tooManyVersions : Error := .limit "too many symbol versions"

/-! ### Needed versions -/

def sortNeeds (needs : List Need) : List Need := needs.mergeSort fun a b => (compare a b).isLE

/-- The files of the needed versions. -/
def needFiles (needs : List Need) : List ℕ := (needs.map Need.file).destutter (· ≠ ·)

/-- The versions needed of a file. -/
def versionsOf (needs : List Need) (file : ℕ) : List (List UInt8) :=
  (needs.filter fun need => need.file = file).map Need.version

/-- The index of a needed version; 0 when it is not there or does not fit. -/
def needIndex (needs : List Need) (first : ℕ) (need : Need) : ℕ :=
  match (searchEq (fun i => needs[i]?) need 0 needs.length).join with
  | some position => if position ≤ U16_MAX ∧ position + first ≤ U16_MAX then position + first else 0
  | none => 0

/-! ### Records -/

/-- The records of a library's versions, each with the offset of its name. -/
def vernaux (kind : ElfKind) (index : List UInt8 → ℕ) : List (List UInt8 × ℕ) → List UInt8
  | [] => []
  | version :: rest =>
    kind.e32 (sysvHash version.1) ++ kind.e16 0 ++ kind.e16 (index version.1) ++
      kind.e32 version.2 ++ kind.e32 (if rest = [] then 0 else 16) ++ vernaux kind index rest

/-- A version definition as it is written. -/
structure VerDefEntry where
  flags : ℕ
  index : ℕ
  name : List UInt8
  parents : List (List UInt8)

/-- A definition of the script. -/
def verDefEntry (d : VersionDef) (index : ℕ) : VerDefEntry :=
  { flags := 0
    index := if index + 2 ≤ U16_MAX then index + 2 else U16_MAX
    name := d.name
    parents := d.parents }

/-- The names of all definitions, with their offsets. -/
def addDefNames (hash : List UInt8 → ℕ) :
    StrTab → List VerDefEntry → Except Error (List (VerDefEntry × List ℕ) × StrTab)
  | dynstr, [] => .ok ([], dynstr)
  | dynstr, entry :: rest => do
    let (offsets, dynstr) ← dynstr.addEach hash (entry.name :: entry.parents)
    let (defs, dynstr) ← addDefNames hash dynstr rest
    .ok ((entry, offsets) :: defs, dynstr)

/-- The records of a definition's names. -/
def verdaux (kind : ElfKind) : List ℕ → List UInt8
  | [] => []
  | offset :: rest =>
    kind.e32 offset ++ kind.e32 (if rest = [] then 0 else 8) ++ verdaux kind rest

/-- The records of the definitions. -/
def putVerdef (kind : ElfKind) : List (VerDefEntry × List ℕ) → Except Error (List UInt8)
  | [] => .ok []
  | x :: rest =>
    let count := x.1.parents.length + 1
    if U16_MAX < count then .error (.limit "too many version parents")
    else do
      let data ← putVerdef kind rest
      .ok (kind.e16 1 ++ kind.e16 x.1.flags ++ kind.e16 x.1.index ++ kind.e16 count ++
        kind.e32 (sysvHash x.1.name) ++ kind.e32 20 ++
        kind.e32 (if rest = [] then 0 else 20 + count * 8) ++ verdaux kind x.2 ++ data)

/-! ### The planner -/

/-- What the planner is told. -/
structure PlanInput where
  /-- The chosen symbols: those imported, and those defined or with a canonical PLT entry. -/
  imports : List ℕ
  exports : List ℕ
  /-- The symbol table. -/
  name : ℕ → List UInt8
  definition_kind : ℕ → DefinitionKind
  /-- `import_version`: the library's file and the version under which it defines a symbol. -/
  import_version : ℕ → Option Need
  /-- The version that a script gives a symbol; 0 when none was assigned. -/
  exports_version : ℕ → ℕ
  /-- The versions of the script; none when there is no script. -/
  defs : List VersionDef
  soname : Option (List UInt8)
  glibc_abi_versions : List Need
  /-- The name under which a file is needed; empty when it is no library. -/
  needed_name : ℕ → List UInt8
  /-- The strings of `.dynamic`. -/
  strings : List (List UInt8)
  gnu : Bool
  sysv : Bool
  kind : ElfKind
  wide_sysv_hash : Bool

namespace PlanInput

variable (input : PlanInput)

def entry_name : Entry → List UInt8
  | .symbol id => input.name id
  | .version v => (input.defs[v - 2]?).elim [] VersionDef.name

/-- The exports, with a symbol for each version of the script. -/
def exportEntries : Except Error (List Entry) :=
  if U16_MAX < input.defs.length + 1 ∧ input.defs ≠ [] then .error tooManyVersions
  else .ok (input.exports.map .symbol ++
    (List.range input.defs.length).map fun index => .version (index + 2))

/-- The version an entry imports. -/
def imported : Entry → Option Need
  | .symbol id => input.import_version id
  | .version _ => none

/-! ### Needed versions -/

/-- The versions needed, in file order, then by name. -/
def needList (entries : List Entry) : List Need :=
  let list := sortNeeds (entries.filterMap input.imported)
  let list :=
    if input.glibc_abi_versions = [] then list
    else sortNeeds (list ++ input.glibc_abi_versions)
  list.destutter (· ≠ ·)

def firstNeedIndex : Except Error ℕ :=
  if input.defs = [] then .ok 2
  else if input.defs.length + 2 ≤ U16_MAX then .ok (input.defs.length + 2)
  else .error tooManyVersions

/-! ### `.gnu.version` -/

def versymOf (needs : List Need) (first : ℕ) : Entry → ℕ
  | .version v => v
  | .symbol id =>
    match input.import_version id with
    | some need => needIndex needs first need
    | none =>
      match input.definition_kind id with
      | .regular | .weak | .common =>
        if input.exports_version id = 0 then VER_NDX_GLOBAL else input.exports_version id
      | _ => 0

/-- `.gnu.version`, if there are versions. -/
def versym (needs : List Need) (first : ℕ) (entries : List Entry) : List ℕ :=
  if input.defs ≠ [] ∨ needs ≠ [] then 0 :: entries.map (input.versymOf needs first) else []

/-! ### `.gnu.version_r` -/

/-- The records of the files.  The strings of a record are added as it is written; nothing else is
added in between.  A count of 16 bits cannot make a link overflow. -/
def putVerneed (hash : List UInt8 → ℕ) (needs : List Need) (first : ℕ) :
    StrTab → List ℕ → Except Error (List UInt8 × StrTab)
  | dynstr, [] => .ok ([], dynstr)
  | dynstr, file :: rest =>
    let versions := versionsOf needs file
    if U16_MAX < versions.length then .error (.limit "too many needed versions")
    else do
      let (offsets, dynstr) ← dynstr.addEach hash (input.needed_name file :: versions)
      let (data, dynstr) ← putVerneed hash needs first dynstr rest
      .ok (input.kind.e16 1 ++ input.kind.e16 versions.length ++
          input.kind.e32 (offsets.headD 0) ++ input.kind.e32 16 ++
          input.kind.e32 (if rest = [] then 0 else versions.length * 16 + 16) ++
          vernaux input.kind (fun name => needIndex needs first ⟨file, name⟩)
            (versions.zip offsets.tail) ++
          data, dynstr)

/-! ### `.gnu.version_d` -/

/-- The base version, and those of the script. -/
def verDefEntries : List VerDefEntry :=
  { flags := VER_FLG_BASE, index := 1, name := input.soname.getD [], parents := [] } ::
    input.defs.zipIdx.map fun x => verDefEntry x.1 x.2

/-! ### The plan -/

/-- The hash tables. -/
def hashTables (exports entries : List Entry) : Except Error (List UInt8 × List UInt8) := do
  let gnuHash ←
    planGnuHash input.entry_name (input.imports.map .symbol) exports input.gnu input.kind
  let sysvHash ←
    planSysvHash (entries.map input.entry_name) input.sysv input.kind input.wide_sysv_hash
  .ok (gnuHash, sysvHash)

/-- `.gnu.version_d` and the number of its definitions, if the script has any. -/
def verdef (hash : List UInt8 → ℕ) (dynstr : StrTab) :
    Except Error ((List UInt8 × ℕ) × StrTab) :=
  if input.defs = [] then .ok (([], 0), dynstr)
  else do
    let (defs, dynstr) ← addDefNames hash dynstr input.verDefEntries
    let data ← putVerdef input.kind defs
    .ok ((data, defs.length), dynstr)

/-- Plans the dynamic tables.  A task of `add_all` copies `chunk` strings. -/
def planChosen (hash : List UInt8 → ℕ) (chunk : ℕ) : Except Error DynamicPlan := do
  let exports ← input.exportEntries
  let entries := input.imports.map .symbol ++
    (planHashed input.entry_name input.gnu exports).map (·.2.1)
  if U32_MAX < entries.length + 1 then .error (.limit "too many dynamic symbols")
  else do
    let needs := input.needList entries
    let first ← input.firstNeedIndex
    let (_, dynstr) ← StrTab.new.addEach hash input.strings
    let (_, dynstr) ← dynstr.addAll hash chunk (entries.map input.entry_name)
    let hashes ← input.hashTables exports entries
    let (verneed, dynstr) ← input.putVerneed hash needs first dynstr (needFiles needs)
    let (verdef, dynstr) ← input.verdef hash dynstr
    .ok
      { entries
        gnu_hash := hashes.1
        sysv_hash := hashes.2
        versym := input.versym needs first entries
        verneed
        verneed_count := (needFiles needs).length
        verdef := verdef.1
        verdef_count := verdef.2
        dynstr := dynstr.data }

end PlanInput

end Qld.Elf.Dynsym
