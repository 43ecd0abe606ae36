import Qld.Elf.Bytes
import Qld.Elf.Dynsym.StrTab
import Qld.Elf.Word

/-!
# Fields of dynamic tables, and the hash tables

Numbers in the byte order of an output, one field after the other.

* `ElfKind.encode` — a number in a field; `e16`, `e32`, `e64`, `encodeWord` — the source's widths;
* `ElfKind.fields`, `ElfKind.record` — numbers in fields of one width, and of several;
* `ElfKind.read` — the number at a position;
* `read_fields`, `read_record` — a number that fits is read back from its field.

The model of the hash tables of `elf/dynsym.rs`.

* `gnuHash`, `sysvHash` — the hashes of a name; `bucketCount` — the number of buckets;
* `Entry`, `planHashed` — the entries of `.dynsym`, and the order of the hashed ones;
* `buildGnuHash`, `buildSysvHash` — the bytes of `.gnu.hash` and `.hash`; `planHash` — both.
-/

namespace Qld.Elf

namespace ElfKind

/-- The byte order. -/
def endianness : ElfKind → Endian
  | elf32Le | elf64Le => .little
  | elf32Be | elf64Be => .big

/-- A number in a field of `width` bytes. -/
def encode (kind : ElfKind) (width value : ℕ) : List UInt8 :=
  match kind.endianness with
  | .little => (beBytes width value).reverse
  | .big => beBytes width value

def e16 (kind : ElfKind) (value : ℕ) : List UInt8 := kind.encode 2 value

def e32 (kind : ElfKind) (value : ℕ) : List UInt8 := kind.encode 4 value

def e64 (kind : ElfKind) (value : ℕ) : List UInt8 := kind.encode 8 value

/-- A word of the class; a 64-bit number loses its upper half in a 32-bit one. -/
def encodeWord (kind : ElfKind) (value : ℕ) : List UInt8 := kind.encode kind.wordSize value

/-- Numbers in fields of one width, one after the other. -/
def fields (kind : ElfKind) (width : ℕ) (values : List ℕ) : List UInt8 :=
  values.flatMap (kind.encode width)

/-- Fields of some widths, one after the other. -/
def record (kind : ElfKind) (values : List (ℕ × ℕ)) : List UInt8 :=
  values.flatMap fun x => kind.encode x.1 x.2

/-- The number of `width` bytes at a position. -/
def read (kind : ElfKind) (width : ℕ) (data : List UInt8) (pos : ℕ) : Option ℕ :=
  if pos + width ≤ data.length then
    some (kind.endianness.getUint ((data.drop pos).take width))
  else none

variable {kind : ElfKind} {width : ℕ}

@[simp] theorem length_encode (value : ℕ) : (kind.encode width value).length = width := by
  unfold encode
  cases kind.endianness <;> simp

theorem getUint_encode {value : ℕ} (h : value < 256 ^ width) :
    kind.endianness.getUint (kind.encode width value) = value := by
  unfold encode
  cases kind.endianness with
  | little =>
    rw [Endian.getUint, List.reverse_reverse, beValue_beBytes, Nat.mod_eq_of_lt h]
  | big => rw [Endian.getUint, beValue_beBytes, Nat.mod_eq_of_lt h]

@[simp] theorem length_fields (values : List ℕ) :
    (kind.fields width values).length = width * values.length := by
  induction values with
  | nil => rfl
  | cons v values ih =>
    rw [fields, List.flatMap_cons, List.length_append, length_encode, List.length_cons,
      Nat.mul_succ, ← ih, fields, Nat.add_comm]

theorem fields_append (xs ys : List ℕ) :
    kind.fields width (xs ++ ys) = kind.fields width xs ++ kind.fields width ys :=
  List.flatMap_append

theorem read_middle {before after : List UInt8} {value : ℕ} (h : value < 256 ^ width) :
    kind.read width (before ++ (kind.encode width value ++ after)) before.length = some value := by
  rw [read, if_pos (by simp), List.drop_left]
  rw [List.take_append_of_le_length (by simp), List.take_of_length_le (by simp),
    getUint_encode h]

/-- **A number is read back from its field.** -/
theorem read_fields (before : List UInt8) {after : List UInt8} {values : List ℕ} (k : ℕ) {value : ℕ}
    (hk : values[k]? = some value) (h : value < 256 ^ width) :
    kind.read width (before ++ (kind.fields width values ++ after)) (before.length + width * k) =
      some value := by
  obtain ⟨hlt, rfl⟩ := List.getElem?_eq_some_iff.mp hk
  have hsplit : values = values.take k ++ (values[k] :: values.drop (k + 1)) := by
    rw [List.getElem_cons_drop, List.take_append_drop]
  have hbytes : before ++ (kind.fields width values ++ after) =
      (before ++ kind.fields width (values.take k)) ++
        (kind.encode width values[k] ++ (kind.fields width (values.drop (k + 1)) ++ after)) := by
    conv_lhs => rw [hsplit, fields_append, fields, fields, List.flatMap_cons]
    simp only [fields, List.append_assoc]
  have hpos : before.length + width * k =
      (before ++ kind.fields width (values.take k)).length := by
    rw [List.length_append, length_fields, List.length_take, Nat.min_eq_left hlt.le]
  rw [hbytes, hpos, read_middle h]

theorem length_record (kind : ElfKind) (values : List (ℕ × ℕ)) :
    (kind.record values).length = (values.map (·.1)).sum := by
  simp [record, List.length_flatMap]

/-- **A field of a record is read back.** -/
theorem read_record (before : List UInt8) (values : List (ℕ × ℕ)) (after : List UInt8) (k : ℕ)
    {value : ℕ} (hk : values[k]? = some (width, value)) (h : value < 256 ^ width) :
    kind.read width (before ++ (kind.record values ++ after))
      (before.length + ((values.take k).map (·.1)).sum) = some value := by
  obtain ⟨hlt, hget⟩ := List.getElem?_eq_some_iff.mp hk
  have hsplit : values = values.take k ++ (values[k] :: values.drop (k + 1)) := by
    rw [List.getElem_cons_drop, List.take_append_drop]
  have hbytes : before ++ (kind.record values ++ after) =
      (before ++ kind.record (values.take k)) ++
        (kind.encode width value ++ (kind.record (values.drop (k + 1)) ++ after)) := by
    conv_lhs => rw [hsplit, hget]
    simp only [record, List.flatMap_append, List.flatMap_cons, List.append_assoc]
  rw [hbytes, ← length_record kind, ← List.length_append, read_middle h]

end ElfKind

namespace Dynsym

/-! ### Hashes -/

def gnuHash (name : List UInt8) : ℕ := name.foldl (fun h b => (h * 33 + b.toNat) % 2 ^ 32) 5381

/-- One byte of `sysvHash`. -/
def sysvStep (h : ℕ) (b : UInt8) : ℕ :=
  let h := ((h <<< 4) % 2 ^ 32 + b.toNat) % 2 ^ 32
  let g := h &&& 0xf0000000
  let h := if g ≠ 0 then h ^^^ (g >>> 24) else h
  h &&& (2 ^ 32 - 1 - g)

def sysvHash (name : List UInt8) : ℕ := name.foldl sysvStep 0

/-- `usize::next_power_of_two`. -/
def nextPowerOfTwo (n : ℕ) : ℕ := 2 ^ Nat.clog 2 n

def SIZES : List ℕ :=
  [1, 3, 17, 37, 67, 97, 131, 197, 263, 521, 1031, 2053, 4099, 8209, 16411, 32771]

/-- The last size that is reached: the first one, and each next one that is not above the count. -/
def bestSize (symbols : ℕ) : ℕ → List ℕ → ℕ
  | best, [] => best
  | _, [size] => size
  | _, size :: next :: sizes =>
    if next ≤ symbols then bestSize symbols size (next :: sizes) else size

def bucketCount (symbols : ℕ) (gnu : Bool) : ℕ :=
  let best := bestSize symbols 1 SIZES
  if gnu then max best 2 else best

/-! ### Entries -/

/-- One `.dynsym` entry behind the null symbol. -/
inductive Entry where
  | symbol (id : ℕ)
  | version (v : ℕ)
  deriving DecidableEq

def Entry.key : Entry → ℕ × ℕ
  | symbol id => (0, id)
  | version v => (1, v)

/-- The order of hashed entries: by bucket, then by key. -/
def hashedLE (a b : ℕ × Entry × ℕ) : Bool :=
  a.2.2 < b.2.2 || (a.2.2 = b.2.2 && pairLE a.2.1.key b.2.1.key)

/-- The number of buckets of `.gnu.hash`; 1 if there is none. -/
def planBuckets (gnu : Bool) (exports : List Entry) : ℕ :=
  if gnu then bucketCount exports.length true else 1

/-- The exports with their hashes and buckets, in bucket order if there is a `.gnu.hash`. -/
def planHashed (entryName : Entry → List UInt8) (gnu : Bool) (exports : List Entry) :
    List (ℕ × Entry × ℕ) :=
  let hashed := exports.map fun entry =>
    let hash := gnuHash (entryName entry)
    (hash, entry, hash % planBuckets gnu exports)
  if gnu then hashed.mergeSort hashedLE else hashed

/-! ### `.gnu.hash` -/

def gnuTooBig : Error := .limit "GNU hash table too large"

def sysvTooBig : Error := .limit "hash table too large"

/-- The parts of a GNU hash table that is being built. -/
structure GnuTable where
  bloom : List ℕ
  buckets : List ℕ
  chains : List ℕ

/-- The bloom filter's shift. -/
def SHIFT : ℕ := 26

/-- The two bloom bits of a hash, in a word of `wordBits` bits. -/
def bloomBits (wordBits hash : ℕ) : ℕ :=
  1 <<< (hash % wordBits) ||| 1 <<< ((hash >>> SHIFT) % wordBits)

/-- One hashed symbol: its bloom bits, its bucket if it is the first there, and its chain word, with
an end mark when the next one has another bucket. -/
def gnuStep (hashed : List (ℕ × List UInt8)) (nbuckets wordBits symoffset : ℕ) (table : GnuTable)
    (x : (ℕ × List UInt8) × ℕ) : Except Error GnuTable :=
  let hash := x.1.1
  let word := hash / wordBits % table.bloom.length
  let bucket := hash % nbuckets
  if U32_MAX < x.2 + symoffset then .error gnuTooBig
  else
    let last := hashed[x.2 + 1]?.all fun next => next.1 % nbuckets ≠ bucket
    .ok
      { bloom := table.bloom.modify word fun slot => slot ||| bloomBits wordBits hash
        buckets := table.buckets.modify bucket fun slot =>
          if slot = 0 then x.2 + symoffset else slot
        chains := table.chains.set x.2
          (if last then hash ||| 1 else hash &&& (2 ^ 32 - 2)) }

/-- Words of the bloom filter for some symbols. -/
def maskWords (wordBits count : ℕ) : ℕ := nextPowerOfTwo (max (count * 12 / wordBits) 1)

/-- Builds `.gnu.hash`.  Counts of entries are too small for `count * 12` to overflow. -/
def buildGnuHash (hashed : List (ℕ × List UInt8)) (nbuckets symoffset : ℕ) (kind : ElfKind) :
    Except Error (List UInt8) := do
  let count := hashed.length
  let wordBits := kind.wordSize * 8
  let maskWords := maskWords wordBits count
  if U32_MAX < maskWords then .error gnuTooBig
  else if U32_MAX < symoffset + 1 then .error gnuTooBig
  else
    let table ← hashed.zipIdx.foldlM (gnuStep hashed nbuckets wordBits (symoffset + 1))
      { bloom := List.replicate maskWords 0
        buckets := List.replicate nbuckets 0
        chains := List.replicate count 0 }
    .ok (kind.e32 nbuckets ++ kind.e32 (symoffset + 1) ++ kind.e32 maskWords ++ kind.e32 SHIFT ++
      table.bloom.flatMap kind.encodeWord ++ table.buckets.flatMap kind.e32 ++
      table.chains.flatMap kind.e32)

/-! ### `.hash` -/

/-- The parts of a System V hash table that is being built. -/
structure SysvTable where
  buckets : List ℕ
  chains : List ℕ

/-- One symbol: it goes before those of its bucket. -/
def sysvInsert (nbucket : ℕ) (table : SysvTable) (x : List UInt8 × ℕ) : Except Error SysvTable :=
  let index := x.2 + 1
  if U32_MAX < index then .error sysvTooBig
  else
    let bucket := sysvHash x.1 % nbucket
    if bucket < table.buckets.length ∧ index < table.chains.length then
      .ok
        { buckets := table.buckets.set bucket index
          chains := table.chains.set index (table.buckets.getD bucket 0) }
    else .ok table

/-- Builds `.hash`.  `wide` entries have eight bytes. -/
def buildSysvHash (names : List (List UInt8)) (kind : ElfKind) (wide : Bool) :
    Except Error (List UInt8) := do
  let nchain := names.length + 1
  if U32_MAX < nchain then .error sysvTooBig
  else
    let nbucket := bucketCount names.length false
    let table ← names.zipIdx.foldlM (sysvInsert nbucket)
      { buckets := List.replicate nbucket 0
        chains := List.replicate nchain 0 }
    let push := fun value => if wide then kind.e64 value else kind.e32 value
    .ok (push nbucket ++ push nchain ++ (table.buckets ++ table.chains).flatMap push)

/-! ### The plan -/

/-- What the plan says of `.dynsym`, `.gnu.hash` and `.hash`. -/
structure HashPlan where
  entries : List Entry
  gnu_hash : List UInt8
  sysv_hash : List UInt8

/-- `.gnu.hash`, if the style has it. -/
def planGnuHash (entryName : Entry → List UInt8) (imports exports : List Entry) (gnu : Bool)
    (kind : ElfKind) : Except Error (List UInt8) :=
  if gnu then
    buildGnuHash ((planHashed entryName gnu exports).map fun x => (x.1, entryName x.2.1))
      (planBuckets gnu exports) imports.length kind
  else .ok []

/-- `.hash`, if the style has it. -/
def planSysvHash (names : List (List UInt8)) (sysv : Bool) (kind : ElfKind) (wide : Bool) :
    Except Error (List UInt8) :=
  if sysv then buildSysvHash names kind wide else .ok []

/-- Plans the entries of `.dynsym`, imports before exports, and the hash tables that a style has. -/
def planHash (entryName : Entry → List UInt8) (imports exports : List Entry) (gnu sysv : Bool)
    (kind : ElfKind) (wide : Bool) : Except Error HashPlan :=
  let entries := imports ++ (planHashed entryName gnu exports).map (·.2.1)
  if U32_MAX < entries.length + 1 then .error (.limit "too many dynamic symbols")
  else do
    let gnuData ← planGnuHash entryName imports exports gnu kind
    let sysvData ← planSysvHash (entries.map entryName) sysv kind wide
    .ok { entries, gnu_hash := gnuData, sysv_hash := sysvData }

end Dynsym

end Qld.Elf
