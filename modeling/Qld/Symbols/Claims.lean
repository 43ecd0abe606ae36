import Qld.Symbols.InternPending

/-!
# Claims on named groups

The two tables of `symbols/claims.rs` that decide which file keeps its copy of a group:
`GroupClaims`, a sharded map under locks, and `GroupSlots`, which gives each key a slot number and
keeps a claim as one atomic word.

* `GroupClaims.offer`, `GroupClaims.owner` — the first table; each runs under the lock of its shard;
* `GroupSlots.cell`, `GroupSlots.fetchMin`, `GroupSlots.holds` — the claim words of the second;
* `Event`, `System.step` — the atomic steps of any number of threads that use both: a call of
  `slot` holds the lock of its shard while it gets a number, so that the calls under way are one for
  each shard at most.

`HashTable`s are lists, searched as `hashbrown` does.  The system remembers what `slot` returned and
which offers were made; nothing of the source reads that.
-/

namespace Qld.Symbols

def U64_MAX : ℕ := 2 ^ 64 - 1

/-- Number of bits of the key hash that select a shard. -/
def CLAIM_SHARD_BITS : ℕ := 8

def CLAIM_SHARDS : ℕ := 2 ^ CLAIM_SHARD_BITS

def claimShardOf (hash : UInt64) : Fin CLAIM_SHARDS :=
  ⟨hash.toNat >>> (64 - CLAIM_SHARD_BITS), by
    have h := hash.toNat_lt
    rw [Nat.shiftRight_eq_div_pow]
    exact Nat.div_lt_of_lt_mul (lt_of_lt_of_eq h rfl)⟩

/-- The hash hashbrown sees: `hash.rotate_left(8)`. -/
def claimTableHash (hash : UInt64) : UInt64 := hash <<< 8 ||| hash >>> 56

section Entries

variable (hash : SymbolName → UInt64) {α : Type} (keyOf : α → SymbolName)

/-- The closure that compares an entry with a key, behind the comparison of the hashes. -/
def isEntry (key : SymbolName) (e : α) : Bool :=
  claimTableHash (hash (keyOf e)) == claimTableHash (hash key) && keyOf e == key

/-- The entry of a key. -/
def findEntry (table : List α) (key : SymbolName) : Option α := table.find? (isEntry hash keyOf key)

/-- Changes the first entry of a key. -/
def modifyEntry (key : SymbolName) (f : α → α) : List α → List α
  | [] => []
  | e :: table =>
    if isEntry hash keyOf key e then f e :: table else e :: modifyEntry key f table

end Entries

/-! ### Claims by key -/

structure Claim where
  key : SymbolName
  position : ℕ
  owner : ℕ
  /-- The round the claim was made in. -/
  round : ℕ
  deriving DecidableEq

/-- Claims on named groups, made while resolution rounds load files. -/
structure GroupClaims where
  shards : Fin CLAIM_SHARDS → List Claim
  round : ℕ

namespace GroupClaims

def new : GroupClaims := ⟨fun _ => [], 0⟩

variable (hash : SymbolName → UInt64)

/-- The claim on a key. -/
def find (claims : GroupClaims) (key : SymbolName) : Option Claim :=
  findEntry hash Claim.key (claims.shards (claimShardOf (hash key))) key

/-- The file that holds a key, if any file claimed it. -/
def owner (claims : GroupClaims) (key : SymbolName) : Option ℕ :=
  (claims.find hash key).map Claim.owner

/-- Offers `file`, at `position`, as the owner of `key`; whether it holds the key after that. -/
def offer (claims : GroupClaims) (round : ℕ) (key : SymbolName) (position file : ℕ) :
    GroupClaims × Bool :=
  let s := claimShardOf (hash key)
  let table := claims.shards s
  match findEntry hash Claim.key table key with
  | none =>
    ({ claims with
        shards := Function.update claims.shards s (⟨key, position, file, round⟩ :: table) },
      true)
  | some claim =>
    if claim.round = round ∧ toLex (position, file) < toLex (claim.position, claim.owner) then
      ({ claims with
          shards := Function.update claims.shards s <| modifyEntry hash Claim.key key
            (fun claim => { claim with position := position, owner := file }) table },
        true)
    else (claims, claim.owner == file)

end GroupClaims

/-! ### Claims by slot -/

/-- Entries in the first segment; segment `k` holds `SLOT_BASE << k`. -/
def SLOT_BASE : ℕ := 1024

/-- Segments of `GroupSlots`. -/
def SLOT_SEGMENTS : ℕ := 23

/-- Claims on named groups, by slot number. -/
structure GroupSlots where
  keys : Fin CLAIM_SHARDS → List (SymbolName × ℕ)
  next : ℕ
  /-- The segments of claim words, created on first use. -/
  claims : ℕ → Option (List ℕ)

namespace GroupSlots

def new : GroupSlots := ⟨fun _ => [], 0, fun _ => none⟩

/-- The segment of a slot: `usize::BITS - 1 - scaled.leading_zeros()`. -/
def segmentOf (slot : ℕ) : ℕ := Nat.log2 (slot / SLOT_BASE + 1)

/-- Segment `k` starts at `SLOT_BASE * (2 ^ k - 1)`. -/
def startOf (segment : ℕ) : ℕ := SLOT_BASE * (1 <<< segment - 1)

/-- The segment of a slot, and its index there. -/
def cell (slot : ℕ) : ℕ × ℕ := (segmentOf slot, slot - startOf (segmentOf slot))

/-- `get_or_init` of the segment of a slot. -/
def openSegment (slots : GroupSlots) (slot : ℕ) : GroupSlots :=
  let segment := segmentOf slot
  match slots.claims segment with
  | some _ => slots
  | none => { slots with
      claims := Function.update slots.claims segment
        (some (List.replicate (SLOT_BASE <<< segment) U64_MAX)) }

/-- A claim as a word. -/
def pack (round rank : ℕ) : ℕ := round <<< 32 ||| rank

/-- `fetch_min` on the word of a slot; none when the segment was not created or is too short. -/
def fetchMin (slots : GroupSlots) (slot value : ℕ) : Option GroupSlots := do
  let (segment, index) := cell slot
  let cells ← slots.claims segment
  let old ← cells[index]?
  return { slots with
    claims := Function.update slots.claims segment (some (cells.set index (min old value))) }

/-- The word of a slot, after `cell` created its segment. -/
def load (slots : GroupSlots) (slot : ℕ) : Option ℕ := do
  let (segment, index) := cell slot
  let cells ← (slots.openSegment slot).claims segment
  cells[index]?

/-- Whether the file of rank `rank`, which offered `slot` in round `round`, holds it. -/
def holds (slots : GroupSlots) (slot round rank : ℕ) : Bool :=
  slots.load slot == some (pack round rank)

end GroupSlots

/-! ### Threads -/

/-- A call of `slot` that holds the lock of its shard. -/
inductive Call where
  /-- In the compare-exchange loop, with the number read last. -/
  | exchange (key : SymbolName) (slot : ℕ)
  /-- About to insert the key with the number it got. -/
  | insert (key : SymbolName) (slot : ℕ)
  deriving DecidableEq

/-- An offer: its round, key and file. -/
structure Offer where
  round : ℕ
  key : SymbolName
  file : ℕ
  deriving DecidableEq

/-- The two tables, the calls of `slot` under way, and what was returned and offered so far. -/
structure System where
  claims : GroupClaims
  slots : GroupSlots
  calls : Fin CLAIM_SHARDS → Option Call
  returned : List (SymbolName × Option ℕ)
  claimed : List Offer
  offered : List Offer

/-- An atomic step of some thread. -/
inductive Event where
  /-- `slot` locks the shard of a key and looks it up. -/
  | look (key : SymbolName)
  /-- `compare_exchange_weak` fails and gives the current number. -/
  | retry (shard : Fin CLAIM_SHARDS)
  /-- `checked_add` fails. -/
  | full (shard : Fin CLAIM_SHARDS)
  /-- `compare_exchange_weak` succeeds. -/
  | take (shard : Fin CLAIM_SHARDS)
  | insert (shard : Fin CLAIM_SHARDS)
  /-- `cell` creates the segment of a slot. -/
  | openSegment (slot : ℕ)
  /-- `GroupSlots::offer` by the slot of a key, the `fetch_min`. -/
  | offer (slot : ℕ) (o : Offer)
  /-- `ClaimRound::offer`. -/
  | claim (o : Offer)

/-- The files: their positions, and ranks that order them by position and number. -/
structure Files where
  count : ℕ
  position : ℕ → ℕ
  rank : ℕ → ℕ
  rank_le : ∀ file < count, rank file ≤ U32_MAX
  rank_lt_iff : ∀ f < count, ∀ g < count,
    rank f < rank g ↔ toLex (position f, f) < toLex (position g, g)

namespace System

def new : System := ⟨.new, .new, fun _ => none, [], [], []⟩

variable (hash : SymbolName → UInt64) (files : Files)

/-- What a step does; none when no thread can take it.  Offers go by slots that `slot` returned, and
to `GroupClaims` in rounds that do not decrease. -/
def step (st : System) : Event → Option System
  | .look key =>
    let s := claimShardOf (hash key)
    if st.calls s ≠ none then none
    else
      match findEntry hash Prod.fst (st.slots.keys s) key with
      | some entry => some { st with returned := (key, some entry.2) :: st.returned }
      | none =>
        some { st with calls := Function.update st.calls s (some (.exchange key st.slots.next)) }
  | .retry s =>
    match st.calls s with
    | some (.exchange key _) =>
      some { st with calls := Function.update st.calls s (some (.exchange key st.slots.next)) }
    | _ => none
  | .full s =>
    match st.calls s with
    | some (.exchange key slot) =>
      if slot = U32_MAX then
        some { st with
          calls := Function.update st.calls s none
          returned := (key, none) :: st.returned }
      else none
    | _ => none
  | .take s =>
    match st.calls s with
    | some (.exchange key slot) =>
      if slot ≠ U32_MAX ∧ st.slots.next = slot then
        some { st with
          slots := { st.slots with next := slot + 1 }
          calls := Function.update st.calls s (some (.insert key slot)) }
      else none
    | _ => none
  | .insert s =>
    match st.calls s with
    | some (.insert key slot) =>
      some { st with
        slots := { st.slots with
          keys := Function.update st.slots.keys s ((key, slot) :: st.slots.keys s) }
        calls := Function.update st.calls s none
        returned := (key, some slot) :: st.returned }
    | _ => none
  | .openSegment slot => some { st with slots := st.slots.openSegment slot }
  | .offer slot o =>
    if (o.key, some slot) ∈ st.returned ∧ o.round ≤ U32_MAX ∧ o.file < files.count then do
      let slots ← st.slots.fetchMin slot (GroupSlots.pack o.round (files.rank o.file))
      return { st with slots := slots, offered := o :: st.offered }
    else none
  | .claim o =>
    if o.round ≤ U32_MAX ∧ o.file < files.count ∧
        ∀ earlier ∈ st.claimed, earlier.round ≤ o.round then
      some { st with
        claims := (st.claims.offer hash o.round o.key (files.position o.file) o.file).1
        claimed := o :: st.claimed }
    else none

/-- Steps one after the other. -/
def run (st : System) (events : List Event) : Option System :=
  events.foldlM (step hash files) st

end System

end Qld.Symbols
