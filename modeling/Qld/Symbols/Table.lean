import Qld.Symbols.Definition

/-!
# The symbol table

The state of `symbols/table.rs`: interned names, the sharded hash tables that find them, and
the per-symbol flags and definitions.

* `SymbolName` — a name with its version; its 64-bit hash is a parameter `hash` of every
  operation that needs it, an arbitrary function of the two;
* `Slot`, `Shard`, `SymbolTable` — the hash tables are lists of slots, searched as
  `hashbrown` does: by the expanded hash, and then by the closure the caller passes;
* `SymbolTable.setFlags`, `SymbolTable.insertDefinition` — the operations of the
  resolution driver on the per-symbol state;
* `insertDefinition_any_order` — the definition a symbol is left with does not
  depend on the order of the offers, for the rules of each format.

A definition update runs under the symbol's lock, so a run of concurrent updates is a run of
the sequential ones in some order; the locks themselves are not modelled.  Symbol IDs and
slot values are `u32` in the source and natural numbers here: a table holds at most `2 ^ 31`
names (`SymbolTable.limit_le`), so nothing wraps.
-/

namespace Qld.Symbols

open Qld.Lib

/-- A symbol name: raw bytes and an optional version. -/
structure SymbolName where
  bytes : List UInt8
  version : Option (List UInt8)
  deriving DecidableEq, Repr

/-- Number of bits of the name hash that select a shard. -/
def SHARD_BITS : ℕ := 11

def SHARD_COUNT : ℕ := 2 ^ SHARD_BITS

/-- Bit 31 of a raw slot value marks a provisional handle during interning. -/
def PENDING : ℕ := 2 ^ 31

/-- The largest number of distinct symbols a table can hold. -/
def MAX_SYMBOLS : ℕ := PENDING

/-- A name's first occurrence: job position, then index within the job. -/
abbrev Occurrence := ℕ ×ₗ ℕ

structure Slot where
  /-- Low 32 bits of the name hash. -/
  h32 : UInt32
  /-- Final symbol ID, or `PENDING | index into Shard::pending`. -/
  value : ℕ
  deriving DecidableEq, Repr

structure PendingName where
  name : SymbolName
  first : Occurrence
  deriving DecidableEq

structure Shard where
  table : List Slot
  /-- Names first seen in the current batch. -/
  pending : List PendingName
  /-- Final IDs of the pending names, between passes 2 and 3. -/
  assigned : List ℕ
  deriving DecidableEq

def Shard.new : Shard := ⟨[], [], []⟩

/-- The shard a hash selects. -/
def shardOf (hash : UInt64) : Fin SHARD_COUNT :=
  ⟨hash.toNat >>> (64 - SHARD_BITS), by
    have h := hash.toNat_lt
    rw [Nat.shiftRight_eq_div_pow]
    exact Nat.div_lt_of_lt_mul (lt_of_lt_of_eq h rfl)⟩

def low32 (hash : UInt64) : UInt32 := hash.toUInt32

/-- The 64-bit value `hashbrown` sees. -/
def tableHash (h32 : UInt32) : UInt64 := h32.toUInt64 * 0x9e3779b97f4a7c15

/-- `HashTable::find`: a slot of the given hash that satisfies the closure. -/
def findSlot (table : List Slot) (hash : UInt64) (eq : Slot → Bool) : Option Slot :=
  table.find? fun slot => tableHash slot.h32 == hash && eq slot

/-! ### Per-symbol state -/

/-- A live file has a non-weak reference to the symbol. -/
def REFERENCED : ℕ := 1 <<< 0

/-- A live file has a weak reference to the symbol. -/
def WEAK_REFERENCED : ℕ := 1 <<< 1

/-- `SymbolFlags::contains`. -/
def containsFlags (flags other : ℕ) : Bool := flags &&& other == other

/-- One symbol's current definition, as separate fields. -/
structure DefCell where
  position : ℕ
  aux : UInt64
  file : ℕ
  index : ℕ
  /-- `Definition.kind` as `u8`; `Undefined` means the rest is unset. -/
  kind : ℕ
  deriving DecidableEq, Repr

namespace DefCell

/-- A cell for a symbol with no definition yet. -/
def undefined : DefCell := ⟨0, 0, 0, 0, DefinitionKind.undefined.toU8⟩

def load (cell : DefCell) : Definition :=
  let kind := DefinitionKind.fromU8 cell.kind
  if kind = .undefined then .undefined
  else ⟨kind, cell.file, cell.index, cell.position, cell.aux⟩

def store (d : Definition) : DefCell := ⟨d.position, d.aux, d.file, d.index, d.kind.toU8⟩

@[simp] theorem load_undefined : load undefined = .undefined := rfl

@[simp] theorem load_store {d : Definition} (hd : d.isDefined = true) : load (store d) = d := by
  have hkind : d.kind ≠ .undefined := by simpa [Definition.isDefined] using hd
  simp only [load, store, DefinitionKind.fromU8_toU8, hkind, if_false]

/-- What a cell reads as is either defined or the empty definition. -/
theorem load_cases (cell : DefCell) :
    cell.load = .undefined ∨ cell.load.isDefined = true := by
  simp only [load]
  split
  · exact .inl rfl
  · next h => exact .inr (by simpa [Definition.isDefined] using h)

end DefCell

/-- The global symbol table. -/
structure SymbolTable where
  shards : Fin SHARD_COUNT → Shard
  names : List SymbolName
  flags : List ℕ
  defs : List DefCell
  /-- The most symbols this table may hold; lowered only by tests. -/
  limit : ℕ
  limit_le : limit ≤ MAX_SYMBOLS

namespace SymbolTable

/-- An empty table. -/
def new : SymbolTable := ⟨fun _ => .new, [], [], [], MAX_SYMBOLS, le_rfl⟩

/-- Lowers the symbol limit. -/
def setLimit (t : SymbolTable) (limit : ℕ) : SymbolTable :=
  { t with limit := min limit MAX_SYMBOLS, limit_le := min_le_right _ _ }

def len (t : SymbolTable) : ℕ := t.names.length

/-- Looks up a name without interning it. -/
def lookup (hash : SymbolName → UInt64) (t : SymbolTable) (name : SymbolName) : Option ℕ :=
  let h32 := low32 (hash name)
  let shard := t.shards (shardOf (hash name))
  (findSlot shard.table (tableHash h32) fun slot =>
    slot.h32 == h32 && slot.value &&& PENDING == 0 && t.names[slot.value]? == some name).map
      (·.value)

/-- A symbol's flags; a symbol the table did not issue has none. -/
def flagsOf (t : SymbolTable) (id : ℕ) : ℕ := t.flags.getD id 0

/-- Sets `flags` on a symbol and returns the flags it had before. -/
def setFlags (t : SymbolTable) (id flags : ℕ) : SymbolTable × ℕ :=
  ({ t with flags := t.flags.set id (t.flagsOf id ||| flags) }, t.flagsOf id)

/-- The current definition of a symbol. -/
def definition (t : SymbolTable) (id : ℕ) : Definition := (t.defs.getD id .undefined).load

/-- Offers `candidate` as a definition of `id`, and keeps it if it takes precedence over the
current one.  Returns whether it did. -/
def insertDefinition (r : Resolver) (t : SymbolTable) (id : ℕ) (candidate : Definition) :
    SymbolTable × Bool :=
  if takesPrecedence r candidate (t.definition id) then
    ({ t with defs := t.defs.set id (.store candidate) }, true)
  else (t, false)

/-- A run of offers to one symbol. -/
def insertAll (r : Resolver) (t : SymbolTable) (id : ℕ) (candidates : List Definition) :
    SymbolTable :=
  candidates.foldl (fun t c => (t.insertDefinition r id c).1) t

variable (r : Resolver)

@[simp] theorem insertDefinition_defs_length (t : SymbolTable) (id : ℕ) (c : Definition) :
    (t.insertDefinition r id c).1.defs.length = t.defs.length := by
  unfold insertDefinition
  split <;> simp

/-- What an offer leaves: the candidate, if it takes precedence. -/
theorem insertDefinition_definition (t : SymbolTable) {id : ℕ} (hid : id < t.defs.length)
    (c : Definition) :
    (t.insertDefinition r id c).1.definition id =
      if takesPrecedence r c (t.definition id) then c else t.definition id := by
  unfold insertDefinition
  split
  · next h =>
    have hc : c.isDefined = true := by
      by_contra hc
      rw [takesPrecedence_undefined_left r _ (by simpa using hc)] at h
      exact Bool.false_ne_true h
    simp [definition, hid, hc]
  · rfl

/-- An offer to one symbol leaves the others alone. -/
theorem insertDefinition_other (t : SymbolTable) {id other : ℕ} (hne : id ≠ other) (c : Definition)
    :
    (t.insertDefinition r id c).1.definition other = t.definition other := by
  unfold insertDefinition
  split
  · simp [definition, List.getD_eq_getElem?_getD, List.getElem?_set_ne hne]
  · rfl

/-- The definition of a symbol as the content of a cell: nothing while it is undefined. -/
def cellOf (d : Definition) : Option Definition := if d.isDefined then some d else none

/-- Offering to the table is offering to the symbol's cell. -/
theorem cellOf_insertDefinition (t : SymbolTable) {id : ℕ} (hid : id < t.defs.length)
    {c : Definition} (hc : c.isDefined = true) :
    cellOf ((t.insertDefinition r id c).1.definition id) =
      offer (takesPrecedence r) (cellOf (t.definition id)) c := by
  rw [insertDefinition_definition r t hid]
  by_cases hd : (t.definition id).isDefined = true
  · by_cases hp : takesPrecedence r c (t.definition id) = true
    · simp [cellOf, offer, hc, hd, hp]
    · simp [cellOf, offer, hd, hp]
  · have hp := takesPrecedence_undefined_right r hc (by simpa using hd)
    simp [cellOf, offer, hc, hd, hp]

theorem cellOf_insertAll {id : ℕ} (l : List Definition) :
    ∀ t : SymbolTable, id < t.defs.length → (∀ c ∈ l, c.isDefined = true) →
      cellOf ((t.insertAll r id l).definition id) =
        offerAll (takesPrecedence r) (cellOf (t.definition id)) l := by
  induction l with
  | nil => intro t _ _; rfl
  | cons c l ih =>
    intro t hid hl
    show cellOf (((t.insertDefinition r id c).1.insertAll r id l).definition id) = _
    rw [ih _ (by simpa using hid) (fun c hc => hl c (List.mem_cons_of_mem _ hc)),
      cellOf_insertDefinition r t hid (hl c List.mem_cons_self)]
    rfl

theorem definition_cases (t : SymbolTable) (id : ℕ) :
    t.definition id = .undefined ∨ (t.definition id).isDefined = true :=
  DefCell.load_cases _

/-- A symbol's definition is read back from its cell. -/
theorem cellOf_getD (t : SymbolTable) (id : ℕ) :
    (cellOf (t.definition id)).getD .undefined = t.definition id := by
  rcases t.definition_cases id with h | h
  · rw [h]; rfl
  · simp [cellOf, h]

/-- **The rules of each format are order independent (proved).**  `takes_precedence` is a strict
total order on candidates that can be told apart, and offering them in any order leaves their
maximum. -/
theorem insertDefinition_any_order (rules : FormatRules) (candidates : List Definition)
    (hc : Distinguishable {c | c ∈ candidates}) :
    StrictTotalOn (fun a b => takesPrecedence rules.resolver a b = true)
        {c | c ∈ candidates} ∧
      (∃ best : Option Definition,
        HoldsBest (fun a b => takesPrecedence rules.resolver a b = true)
          {c | c ∈ candidates} best ∧
        ∀ (t : SymbolTable) (id : ℕ), id < t.defs.length → t.definition id = .undefined →
          ∀ order : List Definition, order.Perm candidates →
            (t.insertAll rules.resolver id order).definition id = best.getD .undefined) ∧
      (∀ allow, rules = .elf allow → ∀ a ∈ candidates, ∀ b ∈ candidates,
        LazyAndShared a b → a.position < b.position →
          takesPrecedence rules.resolver a b = true) := by
  have htotal := takesPrecedence_strictTotalOn rules hc
  refine ⟨htotal, ⟨offerAll (takesPrecedence rules.resolver) none candidates,
    offerAll_isBest candidates htotal, ?_⟩, ?_⟩
  · intro t id hid hundef order hperm
    have hset : {c | c ∈ order} = {c | c ∈ candidates} := by
      ext c
      exact hperm.mem_iff
    have hcell := cellOf_insertAll rules.resolver order t hid
      (fun c hco => hc.defined c (hperm.mem_iff.mp hco))
    rw [hundef, show cellOf Definition.undefined = none from rfl] at hcell
    have hbest := offerAll_isBest order (hset ▸ htotal)
    rw [hset] at hbest
    rw [← cellOf_getD, hcell, hbest.unique htotal (offerAll_isBest candidates htotal)]
  · rintro allow rfl a _ b _ hmix hpos
    exact elf_earlier_precedes allow hmix hpos

/-- An archive member between two shared libraries: the first library is stored. -/
theorem insertDefinition_any_order_lazy_shared :
    let candidates : List Definition :=
      [⟨.lazy, 1, 0, 1, 0⟩, ⟨.shared, 2, 0, 2, 0⟩, ⟨.shared, 0, 0, 0, 0⟩]
    let t : SymbolTable := { new with names := [⟨[97], none⟩], flags := [0], defs := [.undefined] }
    StrictTotalOn (fun a b => takesPrecedence (elfRules false) a b = true)
        {c | c ∈ candidates} ∧
      ∀ order : List Definition, order.Perm candidates →
        (t.insertAll (elfRules false) 0 order).definition 0 = ⟨.shared, 0, 0, 0, 0⟩ := by
  intro candidates t
  have hc : Distinguishable {c | c ∈ candidates} := by
    constructor <;> simp only [Set.mem_ofPred_eq] <;> decide
  obtain ⟨htotal, ⟨best, hbest, hstored⟩, -⟩ := insertDefinition_any_order (.elf false) candidates hc
  have hfirst : best = some ⟨.shared, 0, 0, 0, 0⟩ := by
    refine hbest.unique htotal ⟨by simp [candidates], ?_⟩
    simp only [Set.mem_ofPred_eq]
    decide
  rw [hfirst] at hstored
  exact ⟨htotal, hstored t 0 (by decide) rfl⟩

end SymbolTable

end Qld.Symbols
