import Mathlib.Algebra.GroupWithZero.Nat
import Mathlib.Data.List.Sort
import Mathlib.Order.WithBot
import Qld.Symbols.Intern

/-!
# Interning in three passes

The general path of `symbols/table.rs`, for batches in which two jobs share a position or that
are too large to partition.  Pass 1 looks the names up, in any order, and puts new ones on the
pending list of their shard with their first occurrence; pass 2 sorts the pending names and
numbers them; pass 3 replaces the provisional handles.

* `Request`, `lookupOrPend`, `lookUpAll` — pass 1; the order of the lookups is a parameter, as
  every lookup runs under the lock of its shard;
* `assignPending`, `rewriteId` — passes 2 and 3; `discardPending` — the way back;
* `lookUpAll_inv` — what pass 1 leaves, for every order of the lookups;
* `internPending_spec` — the new names are numbered by first occurrence and, where
  it is shared, by contents; a batch that does not fit leaves the table as it was.
-/

namespace Qld.Symbols

open Qld.Lib

/-- The largest `u32`. -/
def U32_MAX : ℕ := 2 ^ 32 - 1

/-- `None` orders before every version. -/
def versionKey : Option (List UInt8) → WithBot (List ℕ)
  | none => ⊥
  | some v => ((v.map UInt8.toNat : List ℕ) : WithBot (List ℕ))

/-- `cmp_contents` as a key: the bytes, then the version. -/
def SymbolName.contents (n : SymbolName) : List ℕ ×ₗ WithBot (List ℕ) :=
  toLex (n.bytes.map UInt8.toNat, versionKey n.version)

theorem SymbolName.contents_inj {m n : SymbolName} (h : m.contents = n.contents) : m = n := by
  have hmap : Function.Injective (List.map UInt8.toNat) :=
    List.map_injective_iff.mpr fun a b hab => UInt8.toNat_inj.mp hab
  obtain ⟨bytes, version⟩ := m
  obtain ⟨bytes', version'⟩ := n
  rw [contents, contents, toLex_inj, Prod.mk.injEq] at h
  have hversion : version = version' := by
    cases version with
    | none =>
      cases version' with
      | none => rfl
      | some v' => exact absurd h.2 (WithBot.bot_ne_coe)
    | some v =>
      cases version' with
      | none => exact absurd h.2 (WithBot.coe_ne_bot)
      | some v' => rw [hmap (WithBot.coe_inj.mp h.2)]
  rw [SymbolName.mk.injEq]
  exact ⟨hmap h.1, hversion⟩

/-- One lookup of pass 1: a name, where its ID goes, and its occurrence. -/
structure Request where
  job : ℕ
  index : ℕ
  name : SymbolName
  occurrence : Occurrence
  deriving DecidableEq

/-- The lookups of a batch; an index that does not fit 32 bits is the largest that does. -/
def requests (jobs : List InternJob) : List Request :=
  jobs.zipIdx.flatMap fun job =>
    job.1.names.zipIdx.map fun name =>
      ⟨job.2, name.2, name.1, toLex (job.1.position, min name.2 U32_MAX)⟩

namespace SymbolTable

section Passes

variable (hash : SymbolName → UInt64)

/-- Pass 1 for one name: a final ID or a pending handle.  If the pending list of the shard is
full, the result must not be resolved, and the last component is set. -/
def lookupOrPend (names : List SymbolName) (shard : Shard) (name : SymbolName)
    (occurrence : Occurrence) : Shard × ℕ × Bool :=
  let h32 := low32 (hash name)
  match findSlot shard.table (tableHash h32) fun slot =>
      slot.h32 == h32 &&
        (if slot.value &&& PENDING == 0 then names[slot.value]? == some name
        else (shard.pending[unpend slot.value]?.map PendingName.name) == some name) with
  | some slot =>
    if slot.value &&& PENDING == 0 then (shard, slot.value, false)
    else
      ({ shard with
          pending := shard.pending.modify (unpend slot.value) fun record =>
            if occurrence < record.first then { record with first := occurrence } else record },
        slot.value, false)
  | none =>
    if shard.pending.length < PENDING then
      let value := PENDING ||| shard.pending.length
      ({ shard with
          table := ⟨h32, value⟩ :: shard.table
          pending := shard.pending ++ [⟨name, occurrence⟩] },
        value, false)
    else (shard, U32_MAX, true)

/-- The state of pass 1: the shards, the IDs written so far, and whether a list was full. -/
structure Pass1 where
  shards : Fin SHARD_COUNT → Shard
  written : List ((ℕ × ℕ) × ℕ)
  overflowed : Bool

def lookUp (names : List SymbolName) (state : Pass1) (r : Request) : Pass1 :=
  let s := shardOf (hash r.name)
  let result := lookupOrPend hash names (state.shards s) r.name r.occurrence
  { shards := Function.update state.shards s result.1
    written := ((r.job, r.index), result.2.1) :: state.written
    overflowed := state.overflowed || result.2.2 }

/-- Pass 1, the lookups in the given order. -/
def lookUpAll (t : SymbolTable) (order : List Request) : Pass1 :=
  order.foldl (lookUp hash t.names) ⟨t.shards, [], false⟩

/-- The shards that received new names. -/
def activeShards (shards : Fin SHARD_COUNT → Shard) : List (Fin SHARD_COUNT) :=
  (List.finRange SHARD_COUNT).filter fun s => !(shards s).pending.isEmpty

/-- Undoes pass 1: removes the provisional slots and pending names of the active shards. -/
def discardPending (shards : Fin SHARD_COUNT → Shard) (active : List (Fin SHARD_COUNT)) :
    Fin SHARD_COUNT → Shard := fun s =>
  if s ∈ active then
    { (shards s).retain fun slot => slot.value &&& PENDING == 0 with pending := [] }
  else shards s

/-- A pending name to number: its first occurrence, its shard, its index there. -/
abbrev PendingEntry := Occurrence × Fin SHARD_COUNT × ℕ

def pendingEntries (shards : Fin SHARD_COUNT → Shard) (active : List (Fin SHARD_COUNT)) :
    List PendingEntry :=
  active.flatMap fun s => (shards s).pending.zipIdx.map fun record => (record.1.first, s, record.2)

/-- The name of a pending entry. -/
def entryName (shards : Fin SHARD_COUNT → Shard) (e : PendingEntry) : SymbolName :=
  ((shards e.2.1).pending[e.2.2]?.map PendingName.name).getD ⟨[], none⟩

/-- What the pending names are sorted by: the first occurrence, then the contents. -/
def entryKey (shards : Fin SHARD_COUNT → Shard) (e : PendingEntry) :
    Occurrence ×ₗ (List ℕ ×ₗ WithBot (List ℕ)) :=
  toLex (e.1, (entryName shards e).contents)

/-- The pending names in the order of their IDs. -/
def sortedEntries (shards : Fin SHARD_COUNT → Shard) (active : List (Fin SHARD_COUNT)) :
    List PendingEntry :=
  (pendingEntries shards active).insertionSort fun a b => entryKey shards a ≤ entryKey shards b

/-- The IDs of the pending names of shard `s`, by pending index. -/
def assignIds (s : Fin SHARD_COUNT) : List PendingEntry → ℕ → List ℕ → List ℕ
  | [], _, assigned => assigned
  | e :: order, id, assigned =>
    assignIds s order (id + 1) (if e.2.1 = s then assigned.set e.2.2 id else assigned)

/-- `find_mut`, and a new value for the slot it finds. -/
def replaceSlot (h : UInt64) (handle value : ℕ) : List Slot → List Slot
  | [] => []
  | slot :: table =>
    if tableHash slot.h32 == h && slot.value == handle then { slot with value := value } :: table
    else slot :: replaceSlot h handle value table

/-- Replaces the provisional slots of a shard by final IDs. -/
def finishShard (shard : Shard) : Shard :=
  { shard with
    table := shard.pending.zipIdx.foldl (fun table record =>
      replaceSlot (tableHash (low32 (hash record.1.name))) (PENDING ||| record.2)
        (shard.assigned.getD record.2 0) table) shard.table
    pending := [] }

/-- Pass 2: numbers the pending names of the active shards from `base`. -/
def assignPending (t : SymbolTable) (shards : Fin SHARD_COUNT → Shard)
    (active : List (Fin SHARD_COUNT)) (base newCount : ℕ) : SymbolTable :=
  let order := sortedEntries shards active
  let assigned : Fin SHARD_COUNT → List ℕ := fun s =>
    assignIds s order base (List.replicate (shards s).pending.length U32_MAX)
  growState
    { t with
      shards := fun s =>
        if s ∈ active then finishShard hash { shards s with assigned := assigned s } else shards s
      names := t.names ++ order.map (entryName shards) }
    newCount

/-- Pass 3 for one name. -/
def rewriteId (shards : Fin SHARD_COUNT → Shard) (raw : ℕ) (name : SymbolName) : ℕ :=
  if raw &&& PENDING == 0 then raw
  else (shards (shardOf (hash name))).assigned.getD (unpend raw) 0

/-- Drops the numbers of the active shards when pass 3 is done. -/
def clearAssigned (t : SymbolTable) (active : List (Fin SHARD_COUNT)) : SymbolTable :=
  { t with
    shards := fun s => if s ∈ active then { t.shards s with assigned := [] } else t.shards s }

/-- The `ids` of the jobs after pass 1. -/
def pass1Ids (jobs : List InternJob) (written : List ((ℕ × ℕ) × ℕ)) : List (List ℕ) :=
  jobs.zipIdx.map fun job =>
    job.1.ids.zipIdx.map fun id => (written.lookup (job.2, id.2)).getD id.1

/-- Interns a batch in three passes, the lookups of the first in the given order. -/
def internPending (t : SymbolTable) (jobs : List InternJob) (order : List Request) :
    SymbolTable × Except Error (List (List ℕ)) :=
  let pass1 := t.lookUpAll hash order
  let ids := pass1Ids jobs pass1.written
  let active := activeShards pass1.shards
  if active.isEmpty then ({ t with shards := pass1.shards }, .ok ids)
  else
    let newCount := (active.map fun s => (pass1.shards s).pending.length).sum
    let base := t.names.length
    if pass1.overflowed || t.limit - base < newCount then
      ({ t with shards := discardPending pass1.shards active }, .error (overflow t.limit))
    else
      let t := t.assignPending hash pass1.shards active base newCount
      let ids := List.zipWith
        (fun job ids => List.zipWith (fun name id => rewriteId hash t.shards id name) job.names ids)
        jobs ids
      (t.clearAssigned active, .ok ids)

end Passes

/-! ### What the slots mean during a batch -/

/-- The names that wait in a shard. -/
def pendingNames (shard : Shard) : List SymbolName := shard.pending.map PendingName.name

@[simp] theorem pendingNames_length (shard : Shard) :
    (pendingNames shard).length = shard.pending.length := List.length_map _

/-- The value of a name: its ID, or its pending index with the mark. -/
def pendingValue (names pending : List SymbolName) (n : SymbolName) : Option ℕ :=
  (idOf names n).or ((idOf pending n).map (PENDING ||| ·))

/-- The name a value stands for. -/
def slotName (names pending : List SymbolName) (value : ℕ) : Option SymbolName :=
  if value &&& PENDING == 0 then names[value]? else pending[unpend value]?

section PendingValue

variable {names pending : List SymbolName} {n : SymbolName}

theorem pendingValue_of_mem (h : n ∈ names) :
    pendingValue names pending n = some (names.idxOf n) := by
  rw [pendingValue, idOf_of_mem h, Option.some_or]

theorem pendingValue_of_pending (h : n ∉ names) (hp : n ∈ pending) :
    pendingValue names pending n = some (PENDING ||| pending.idxOf n) := by
  rw [pendingValue, idOf_of_notMem h, idOf_of_mem hp, Option.none_or, Option.map_some]

theorem pendingValue_of_notMem (h : n ∉ names) (hp : n ∉ pending) :
    pendingValue names pending n = none := by
  rw [pendingValue, idOf_of_notMem h, idOf_of_notMem hp, Option.none_or, Option.map_none]

theorem pendingValue_nil (names : List SymbolName) : pendingValue names [] = idOf names := by
  funext n
  rw [pendingValue, idOf_of_notMem (@List.not_mem_nil _ n), Option.map_none, Option.or_none]

/-- A value that is taken stays when more names wait. -/
theorem pendingValue_append {v : ℕ} (extra : List SymbolName)
    (h : pendingValue names pending n = some v) :
    pendingValue names (pending ++ extra) n = some v := by
  by_cases hn : n ∈ names
  · rwa [pendingValue_of_mem hn] at h ⊢
  · by_cases hp : n ∈ pending
    · rw [pendingValue_of_pending hn hp] at h
      rw [pendingValue_of_pending hn (List.mem_append_left _ hp), List.idxOf_append_of_mem hp, h]
    · rw [pendingValue_of_notMem hn hp] at h
      exact absurd h (by simp)

/-- A name that has a value changes nothing when it waits again. -/
theorem pendingValue_snoc_of_some {v : ℕ} (h : pendingValue names pending n = some v) :
    pendingValue names (pending ++ [n]) = pendingValue names pending := by
  funext m
  by_cases hmn : m = n
  · rw [hmn, h]
    exact pendingValue_append [n] h
  · rw [pendingValue, pendingValue, idOf_snoc_of_ne pending hmn]

theorem pendingValue_snoc_of_new (hn : n ∉ names) (hp : n ∉ pending) :
    pendingValue names (pending ++ [n]) =
      Function.update (pendingValue names pending) n (some (PENDING ||| pending.length)) := by
  funext m
  by_cases hmn : m = n
  · subst hmn
    rw [Function.update_self, pendingValue_of_pending hn (by simp), List.idxOf_append_of_notMem hp]
    simp
  · rw [Function.update_of_ne hmn, pendingValue, pendingValue, idOf_snoc hp,
      Function.update_of_ne hmn]

theorem slotName_pendingValue (hnames : names.length ≤ PENDING)
    (hpending : pending.length ≤ PENDING) {v : ℕ} (h : pendingValue names pending n = some v) :
    slotName names pending v = some n := by
  by_cases hn : n ∈ names
  · rw [pendingValue_of_mem hn, Option.some.injEq] at h
    have hlt := List.idxOf_lt_length_of_mem hn
    rw [slotName, ← h, and_pending_of_lt (by omega), beq_self_eq_true, if_pos rfl,
      List.getElem?_eq_getElem hlt, List.getElem_idxOf]
  · by_cases hp : n ∈ pending
    · rw [pendingValue_of_pending hn hp, Option.some.injEq] at h
      have hlt := List.idxOf_lt_length_of_mem hp
      rw [slotName, ← h, pending_or_and_ne, if_neg Bool.false_ne_true,
        unpend_pending_or (by omega), List.getElem?_eq_getElem hlt, List.getElem_idxOf]
    · rw [pendingValue_of_notMem hn hp] at h
      exact absurd h (by simp)

theorem pendingValue_inj (hnames : names.length ≤ PENDING) (hpending : pending.length ≤ PENDING)
    {m : SymbolName} {v : ℕ} (hm : pendingValue names pending m = some v)
    (hn : pendingValue names pending n = some v) : m = n := by
  have hm' := slotName_pendingValue hnames hpending hm
  rw [slotName_pendingValue hnames hpending hn, Option.some.injEq] at hm'
  exact hm'.symm

end PendingValue

/-- A shard during pass 1: it holds the known names and those that wait. -/
structure PendingShard (hash : SymbolName → UInt64) (names : List SymbolName)
    (s : Fin SHARD_COUNT) (before shard : Shard) : Prop where
  holds : Holds hash s (pendingValue names (pendingNames shard)) shard.table
  nodup : (pendingNames shard).Nodup
  mem : ∀ n ∈ pendingNames shard, n ∉ names ∧ shardOf (hash n) = s
  len_le : shard.pending.length ≤ PENDING
  retain : (shard.table.filter fun slot => slot.value &&& PENDING == 0) = before.table
  assigned : shard.assigned = []

section Lookup

variable {hash : SymbolName → UInt64} {names : List SymbolName} {s : Fin SHARD_COUNT}
  {before shard : Shard} {n : SymbolName}

theorem PendingShard.find (h : PendingShard hash names s before shard)
    (hnames : names.length ≤ PENDING) (hs : shardOf (hash n) = s) :
    (findSlot shard.table (tableHash (low32 (hash n))) fun slot =>
      slot.h32 == low32 (hash n) &&
        (if slot.value &&& PENDING == 0 then names[slot.value]? == some n
        else (shard.pending[unpend slot.value]?.map PendingName.name) == some n)) =
      (pendingValue names (pendingNames shard) n).map fun value => ⟨low32 (hash n), value⟩ := by
  refine h.holds.find hs (fun slot =>
    if slot.value &&& PENDING == 0 then names[slot.value]? == some n
    else (shard.pending[unpend slot.value]?.map PendingName.name) == some n) fun slot hslot _ => ?_
  have heq : (if slot.value &&& PENDING == 0 then names[slot.value]? == some n
      else (shard.pending[unpend slot.value]?.map PendingName.name) == some n) =
      (slotName names (pendingNames shard) slot.value == some n) := by
    rw [slotName, pendingNames, List.getElem?_map]
    split <;> rfl
  rw [heq, beq_iff_eq]
  have hlen : (pendingNames shard).length ≤ PENDING := by
    rw [pendingNames_length]
    exact h.len_le
  constructor
  · intro hname
    obtain ⟨m, hm, -⟩ := (h.holds.mem slot).mp hslot
    rw [slotName_pendingValue hnames hlen hm, Option.some.injEq] at hname
    exact hname ▸ hm
  · exact slotName_pendingValue hnames hlen

/-- What a lookup does to the shard of its name, when the pending list is not full. -/
structure Pended (hash : SymbolName → UInt64) (names : List SymbolName) (s : Fin SHARD_COUNT)
    (before shard : Shard) (n : SymbolName) (occurrence : Occurrence) (shard' : Shard)
    (value : ℕ) : Prop where
  keeps : PendingShard hash names s before shard'
  grows : ∃ extra, pendingNames shard' = pendingNames shard ++ extra
  value : pendingValue names (pendingNames shard') n = some value
  mem : ∀ m ∈ pendingNames shard', m ∈ pendingNames shard ∨ m = n
  records : ∀ record ∈ shard'.pending,
    (record.name ≠ n ∧ record ∈ shard.pending) ∨
      (record.name = n ∧
        ((∃ old ∈ shard.pending, old.name = n ∧ record.first = min occurrence old.first) ∨
          (n ∉ pendingNames shard ∧ record.first = occurrence)))

/-- Lowering the first occurrence of the records keeps their names. -/
theorem pendingNames_modify (shard : Shard) (l : ℕ) (occurrence : Occurrence) :
    pendingNames
      { shard with
        pending := shard.pending.modify l fun record =>
          if occurrence < record.first then { record with first := occurrence } else record } =
      pendingNames shard := by
  apply List.ext_getElem?
  intro i
  simp only [pendingNames, List.getElem?_map, List.getElem?_modify]
  cases shard.pending[i]? with
  | none => rfl
  | some record =>
    simp only [Option.map_eq_map, Option.map_some]
    split
    · split <;> rfl
    · rfl

/-- A name that waits already: only its first occurrence may change. -/
theorem Pended.of_pending (h : PendingShard hash names s before shard) (hn : n ∉ names)
    (hp : n ∈ pendingNames shard) (occurrence : Occurrence) :
    Pended hash names s before shard n occurrence
      { shard with
        pending := shard.pending.modify ((pendingNames shard).idxOf n) fun record =>
          if occurrence < record.first then { record with first := occurrence } else record }
      (PENDING ||| (pendingNames shard).idxOf n) := by
  have hnames := pendingNames_modify shard ((pendingNames shard).idxOf n) occurrence
  refine ⟨⟨?_, ?_, ?_, ?_, h.retain, h.assigned⟩, ⟨[], ?_⟩, ?_, ?_, ?_⟩
  · rw [hnames]
    exact h.holds
  · rw [hnames]
    exact h.nodup
  · rw [hnames]
    exact h.mem
  · rw [← pendingNames_length, hnames, pendingNames_length]
    exact h.len_le
  · rw [hnames, List.append_nil]
  · rw [hnames, pendingValue_of_pending hn hp]
  · rw [hnames]
    exact fun m hm => .inl hm
  · intro record hrecord
    obtain ⟨i, hi⟩ := List.mem_iff_getElem?.mp hrecord
    rw [List.getElem?_modify] at hi
    cases hold : shard.pending[i]? with
    | none => rw [hold] at hi; simp at hi
    | some old =>
      have hget : (pendingNames shard)[i]? = some old.name := by
        rw [pendingNames, List.getElem?_map, hold, Option.map_some]
      rw [hold, Option.map_eq_map, Option.map_some, Option.some.injEq] at hi
      by_cases hidx : (pendingNames shard).idxOf n = i
      · -- The record of the name itself.
        have hname : old.name = n := by
          rw [← hidx, List.getElem?_eq_getElem (List.idxOf_lt_length_of_mem hp),
            List.getElem_idxOf, Option.some.injEq] at hget
          exact hget.symm
        rw [if_pos hidx] at hi
        have hmem : old ∈ shard.pending := List.mem_iff_getElem?.mpr ⟨i, hold⟩
        split at hi
        · next hlt =>
          rw [← hi]
          exact .inr ⟨hname, .inl ⟨old, hmem, hname, (min_eq_left hlt.le).symm⟩⟩
        · next hge =>
          rw [← hi]
          exact .inr ⟨hname, .inl ⟨old, hmem, hname, (min_eq_right (not_lt.mp hge)).symm⟩⟩
      · rw [if_neg hidx] at hi
        refine .inl ⟨?_, hi ▸ List.mem_iff_getElem?.mpr ⟨i, hold⟩⟩
        rintro rfl
        refine hidx ?_
        obtain ⟨hi', hget'⟩ := List.getElem?_eq_some_iff.mp hget
        rw [← hi, ← hget', h.nodup.idxOf_getElem]

/-- A new name goes to the end of the pending list. -/
theorem Pended.of_new (h : PendingShard hash names s before shard)
    (hnames : names.length ≤ PENDING) (hs : shardOf (hash n) = s) (hn : n ∉ names)
    (hp : n ∉ pendingNames shard) (hlt : shard.pending.length < PENDING)
    (occurrence : Occurrence) :
    Pended hash names s before shard n occurrence
      { shard with
        table := ⟨low32 (hash n), PENDING ||| shard.pending.length⟩ :: shard.table
        pending := shard.pending ++ [⟨n, occurrence⟩] }
      (PENDING ||| shard.pending.length) := by
  have happend : pendingNames
      { shard with
        table := ⟨low32 (hash n), PENDING ||| shard.pending.length⟩ :: shard.table
        pending := shard.pending ++ [⟨n, occurrence⟩] } = pendingNames shard ++ [n] := by
    simp [pendingNames]
  have hvalue := pendingValue_snoc_of_new hn hp
  rw [pendingNames_length] at hvalue
  refine ⟨⟨?_, ?_, ?_, ?_, ?_, h.assigned⟩, ⟨[n], happend⟩, ?_, ?_, ?_⟩
  · rw [happend, hvalue]
    refine h.holds.insert hs (pendingValue_of_notMem hn hp) fun m hm => ?_
    -- The next pending index is not taken.
    have hname := slotName_pendingValue hnames (by rw [pendingNames_length]; exact h.len_le) hm
    rw [slotName, pending_or_and_ne, if_neg Bool.false_ne_true, unpend_pending_or hlt,
      List.getElem?_eq_none (by rw [pendingNames_length])] at hname
    exact absurd hname (by simp)
  · rw [happend, List.nodup_append_comm]
    exact List.nodup_cons.mpr ⟨hp, h.nodup⟩
  · rw [happend]
    intro m hm
    rcases List.mem_append.mp hm with hm | hm
    · exact h.mem m hm
    · rw [List.mem_singleton.mp hm]
      exact ⟨hn, hs⟩
  · simp only [List.length_append, List.length_singleton]
    omega
  · simp only [List.filter_cons, pending_or_and_ne]
    exact h.retain
  · rw [happend, hvalue, Function.update_self]
  · rw [happend]
    intro m hm
    rcases List.mem_append.mp hm with hm | hm
    · exact .inl hm
    · exact .inr (List.mem_singleton.mp hm)
  · intro record hrecord
    rcases List.mem_append.mp hrecord with hold | hnew
    · refine .inl ⟨fun hname => hp ?_, hold⟩
      rw [← hname]
      exact List.mem_map_of_mem hold
    · rw [List.mem_singleton.mp hnew]
      exact .inr ⟨rfl, .inr ⟨hp, rfl⟩⟩

/-- **One lookup.**  Either the list of the shard is full and nothing changes, or the
name has a value afterwards. -/
theorem lookupOrPend_spec (h : PendingShard hash names s before shard)
    (hnames : names.length ≤ PENDING) (hs : shardOf (hash n) = s) (occurrence : Occurrence) :
    (∃ shard' value, lookupOrPend hash names shard n occurrence = (shard', value, false) ∧
      Pended hash names s before shard n occurrence shard' value) ∨
    (lookupOrPend hash names shard n occurrence = (shard, U32_MAX, true) ∧
      n ∉ names ∧ n ∉ pendingNames shard ∧ shard.pending.length = PENDING) := by
  have hfind := h.find hnames hs
  by_cases hn : n ∈ names
  · refine .inl ⟨shard, names.idxOf n, ?_, h, ⟨[], (List.append_nil _).symm⟩,
      pendingValue_of_mem hn, fun m hm => .inl hm, fun record hrecord => .inl ⟨?_, hrecord⟩⟩
    · have hlt := List.idxOf_lt_length_of_mem hn
      simp only [lookupOrPend, hfind, pendingValue_of_mem hn, Option.map_some,
        and_pending_of_lt (show names.idxOf n < PENDING by omega), beq_self_eq_true, if_true]
    · rintro rfl
      exact (h.mem _ (List.mem_map_of_mem hrecord)).1 hn
  · by_cases hp : n ∈ pendingNames shard
    · refine .inl ⟨_, _, ?_, Pended.of_pending h hn hp occurrence⟩
      have hlt := List.idxOf_lt_length_of_mem hp
      rw [pendingNames_length] at hlt
      have := h.len_le
      simp only [lookupOrPend, hfind, pendingValue_of_pending hn hp, Option.map_some,
        pending_or_and_ne, Bool.false_eq_true, if_false,
        unpend_pending_or (show (pendingNames shard).idxOf n < PENDING by omega)]
    · by_cases hlt : shard.pending.length < PENDING
      · refine .inl ⟨_, _, ?_, Pended.of_new h hnames hs hn hp hlt occurrence⟩
        simp only [lookupOrPend, hfind, pendingValue_of_notMem hn hp, Option.map_none,
          if_pos hlt]
      · have := h.len_le
        refine .inr ⟨?_, hn, hp, by omega⟩
        simp only [lookupOrPend, hfind, pendingValue_of_notMem hn hp, Option.map_none,
          if_neg hlt]

end Lookup

/-! ### Pass 1 in any order -/

/-- A record holds the first of the occurrences of its name. -/
def FirstOf (done : List Request) (n : SymbolName) (first : Occurrence) : Prop :=
  (∃ r ∈ done, r.name = n ∧ r.occurrence = first) ∧
    ∀ r ∈ done, r.name = n → first ≤ r.occurrence

/-- The state of pass 1 after the lookups `done`. -/
structure Pass1Inv (hash : SymbolName → UInt64) (t : SymbolTable) (done : List Request)
    (state : Pass1) : Prop where
  shard : ∀ s, PendingShard hash t.names s (t.shards s) (state.shards s)
  seen : ∀ s, ∀ n ∈ pendingNames (state.shards s), ∃ r ∈ done, r.name = n
  firsts : state.overflowed = false → ∀ s, ∀ record ∈ (state.shards s).pending,
    FirstOf done record.name record.first
  complete : state.overflowed = false → ∀ r ∈ done, r.name ∈ t.names ∨
    r.name ∈ pendingNames (state.shards (shardOf (hash r.name)))
  full : state.overflowed = true → ∃ r ∈ done, r.name ∉ t.names ∧
    r.name ∉ pendingNames (state.shards (shardOf (hash r.name))) ∧
    (state.shards (shardOf (hash r.name))).pending.length = PENDING
  written : state.overflowed = false → ∀ r ∈ done, ∃ value,
    state.written.lookup (r.job, r.index) = some value ∧
      pendingValue t.names (pendingNames (state.shards (shardOf (hash r.name)))) r.name =
        some value

variable {hash : SymbolName → UInt64} {t : SymbolTable}

variable {done : List Request} {r : Request}

theorem FirstOf.snoc {n : SymbolName} {first : Occurrence} (h : FirstOf done n first)
    (hr : r.name ≠ n) : FirstOf (done ++ [r]) n first := by
  obtain ⟨⟨q, hq, hqn, hqo⟩, hmin⟩ := h
  refine ⟨⟨q, List.mem_append_left _ hq, hqn, hqo⟩, fun p hp hpn => ?_⟩
  rcases List.mem_append.mp hp with hp | hp
  · exact hmin p hp hpn
  · rw [List.mem_singleton.mp hp] at hpn
    exact absurd hpn hr

/-- The lower of the first occurrence so far and the next one. -/
theorem FirstOf.snoc_min {first : Occurrence} (h : FirstOf done r.name first) :
    FirstOf (done ++ [r]) r.name (min r.occurrence first) := by
  obtain ⟨⟨q, hq, hqn, hqo⟩, hmin⟩ := h
  constructor
  · rcases le_total r.occurrence first with hle | hle
    · exact ⟨r, by simp, rfl, (min_eq_left hle).symm⟩
    · exact ⟨q, List.mem_append_left _ hq, hqn, by rw [hqo, min_eq_right hle]⟩
  · intro p hp hpn
    rcases List.mem_append.mp hp with hp | hp
    · exact (min_le_right _ _).trans (hmin p hp hpn)
    · rw [List.mem_singleton.mp hp]
      exact min_le_left _ _

/-- The first occurrence of a name that was not looked up before. -/
theorem FirstOf.snoc_new (h : ∀ q ∈ done, q.name ≠ r.name) :
    FirstOf (done ++ [r]) r.name r.occurrence := by
  refine ⟨⟨r, by simp, rfl, rfl⟩, fun p hp hpn => ?_⟩
  rcases List.mem_append.mp hp with hp | hp
  · exact absurd hpn (h p hp)
  · rw [List.mem_singleton.mp hp]

theorem Pass1Inv.pended {state state' : Pass1}
    (hnodup : ((done ++ [r]).map fun r => (r.job, r.index)).Nodup) (h : Pass1Inv hash t done state)
    {shard' : Shard} {value : ℕ}
    (hp : Pended hash t.names (shardOf (hash r.name)) (t.shards (shardOf (hash r.name)))
      (state.shards (shardOf (hash r.name))) r.name r.occurrence shard' value)
    (hself : state'.shards (shardOf (hash r.name)) = shard')
    (hother : ∀ s, s ≠ shardOf (hash r.name) → state'.shards s = state.shards s)
    (hwritten : state'.written = ((r.job, r.index), value) :: state.written)
    (hover : state'.overflowed = state.overflowed) :
    Pass1Inv hash t (done ++ [r]) state' := by
  have hgrow : ∀ s, ∃ extra,
      pendingNames (state'.shards s) = pendingNames (state.shards s) ++ extra := by
    intro s
    by_cases hs : s = shardOf (hash r.name)
    · subst hs
      rw [hself]
      exact hp.grows
    · rw [hother s hs]
      exact ⟨[], (List.append_nil _).symm⟩
  refine ⟨?_, ?_, ?_, ?_, ?_, ?_⟩
  · intro s
    by_cases hs : s = shardOf (hash r.name)
    · subst hs
      rw [hself]
      exact hp.keeps
    · rw [hother s hs]
      exact h.shard s
  · intro s n hn
    by_cases hs : s = shardOf (hash r.name)
    · subst hs
      rw [hself] at hn
      rcases hp.mem n hn with hold | rfl
      · obtain ⟨q, hq, hqn⟩ := h.seen _ n hold
        exact ⟨q, List.mem_append_left _ hq, hqn⟩
      · exact ⟨r, by simp, rfl⟩
    · rw [hother s hs] at hn
      obtain ⟨q, hq, hqn⟩ := h.seen s n hn
      exact ⟨q, List.mem_append_left _ hq, hqn⟩
  · intro hfalse s record hrecord
    rw [hover] at hfalse
    by_cases hs : s = shardOf (hash r.name)
    · subst hs
      rw [hself] at hrecord
      rcases hp.records record hrecord with ⟨hname, hold⟩ | ⟨hname, hrec⟩
      · exact (h.firsts hfalse _ record hold).snoc (Ne.symm hname)
      · rw [hname]
        rcases hrec with ⟨old, hold, holdname, hfirst⟩ | ⟨hnot, hfirst⟩
        · rw [hfirst]
          exact FirstOf.snoc_min (holdname ▸ h.firsts hfalse _ old hold)
        · rw [hfirst]
          refine FirstOf.snoc_new fun q hq hqn => ?_
          -- An earlier lookup of the name would have made it wait.
          have hnew := (hp.keeps.mem r.name (hname ▸ List.mem_map_of_mem hrecord)).1
          rcases h.complete hfalse q hq with hk | hk
          · exact hnew (hqn ▸ hk)
          · rw [hqn] at hk
            exact hnot hk
    · rw [hother s hs] at hrecord
      refine (h.firsts hfalse s record hrecord).snoc fun hname => hs ?_
      rw [hname, ((h.shard s).mem _ (List.mem_map_of_mem hrecord)).2]
  · intro hfalse q hq
    rw [hover] at hfalse
    rcases List.mem_append.mp hq with hq | hq
    · refine (h.complete hfalse q hq).imp_right fun hk => ?_
      obtain ⟨extra, hextra⟩ := hgrow (shardOf (hash q.name))
      rw [hextra]
      exact List.mem_append_left _ hk
    · rw [List.mem_singleton.mp hq, hself]
      by_contra hnot
      rw [not_or] at hnot
      have := hp.value
      rw [pendingValue_of_notMem hnot.1 hnot.2] at this
      exact absurd this (by simp)
  · intro htrue
    rw [hover] at htrue
    obtain ⟨q, hq, hqn, hqp, hqlen⟩ := h.full htrue
    refine ⟨q, List.mem_append_left _ hq, hqn, ?_⟩
    by_cases hs : shardOf (hash q.name) = shardOf (hash r.name)
    · -- A full list takes no more names.
      have hlen := hp.keeps.len_le
      obtain ⟨extra, hextra⟩ := hp.grows
      have hlength := congrArg List.length hextra
      rw [List.length_append, pendingNames_length, pendingNames_length, ← hs, hqlen] at hlength
      have hnil : extra = [] := List.length_eq_zero_iff.mp (by omega)
      rw [hnil, List.append_nil] at hextra
      rw [hs, hself]
      rw [hs] at hqp hqlen
      exact ⟨by rw [hextra]; exact hqp,
        by rw [← pendingNames_length, hextra, pendingNames_length]; exact hqlen⟩
    · rw [hother _ hs]
      exact ⟨hqp, hqlen⟩
  · intro hfalse q hq
    rw [hover] at hfalse
    rw [hwritten]
    rw [List.map_append, List.nodup_append] at hnodup
    rcases List.mem_append.mp hq with hq | hq
    · obtain ⟨v, hv, hvalue⟩ := h.written hfalse q hq
      refine ⟨v, ?_, ?_⟩
      · rw [List.lookup_cons, beq_false_of_ne, hv]
        exact hnodup.2.2 _ (List.mem_map_of_mem hq) _ (by simp)
      · obtain ⟨extra, hextra⟩ := hgrow (shardOf (hash q.name))
        rw [hextra]
        exact pendingValue_append extra hvalue
    · rw [List.mem_singleton.mp hq]
      refine ⟨value, ?_, ?_⟩
      · rw [List.lookup_cons, beq_self_eq_true]
      · rw [hself]
        exact hp.value

theorem Pass1Inv.overflow {state state' : Pass1} (h : Pass1Inv hash t done state)
    (hn : r.name ∉ t.names) (hp : r.name ∉ pendingNames (state.shards (shardOf (hash r.name))))
    (hlen : (state.shards (shardOf (hash r.name))).pending.length = PENDING)
    (hshards : state'.shards = state.shards) (hover : state'.overflowed = true) :
    Pass1Inv hash t (done ++ [r]) state' := by
  refine ⟨?_, ?_, ?_, ?_, ?_, ?_⟩
  · rw [hshards]
    exact h.shard
  · rw [hshards]
    intro s n hn
    obtain ⟨q, hq, hqn⟩ := h.seen s n hn
    exact ⟨q, List.mem_append_left _ hq, hqn⟩
  all_goals
    intro hval
    rw [hover] at hval
  · exact absurd hval (by simp)
  · exact absurd hval (by simp)
  · rw [hshards]
    exact ⟨r, by simp, hn, hp, hlen⟩
  · exact absurd hval (by simp)

/-- **Pass 1, in any order.** -/
theorem lookUpAll_inv (hrep : Rep hash t) (order : List Request)
    (hnodup : (order.map fun r => (r.job, r.index)).Nodup) :
    Pass1Inv hash t order (t.lookUpAll hash order) := by
  induction order using List.reverseRecOn with
  | nil =>
    have hnil : ∀ s, pendingNames (t.shards s) = [] := fun s => by
      rw [pendingNames, hrep.pending s]
      rfl
    refine ⟨fun s => ?_, fun s n hn => ?_, fun _ s record hrecord => ?_,
      fun _ r hr => absurd hr List.not_mem_nil,
      fun htrue => absurd htrue (by simp [lookUpAll]), fun _ r hr => absurd hr List.not_mem_nil⟩
    · show PendingShard hash t.names s (t.shards s) (t.shards s)
      refine ⟨?_, ?_, ?_, ?_, ?_, hrep.assigned s⟩
      · rw [hnil, pendingValue_nil]
        exact hrep.holds s
      · rw [hnil]
        exact List.nodup_nil
      · rw [hnil]
        exact fun n hn => absurd hn List.not_mem_nil
      · rw [hrep.pending s]
        exact Nat.zero_le _
      · refine List.filter_eq_self.mpr fun slot hslot => ?_
        rw [and_pending_of_lt (lt_of_lt_of_le (hrep.value_lt hslot) hrep.len_le), beq_self_eq_true]
    · simp only [lookUpAll, List.foldl_nil, hnil] at hn
      exact absurd hn List.not_mem_nil
    · have : (t.shards s).pending = [] := hrep.pending s
      simp only [lookUpAll, List.foldl_nil, this] at hrecord
      exact absurd hrecord List.not_mem_nil
  | append_singleton order r ih =>
    have h := ih (by
      rw [List.map_append] at hnodup
      exact (List.nodup_append.mp hnodup).1)
    rw [lookUpAll, List.foldl_append, List.foldl_cons, List.foldl_nil, ← lookUpAll]
    rcases lookupOrPend_spec (h.shard (shardOf (hash r.name))) hrep.len_le rfl r.occurrence with
      ⟨shard', value, hresult, hp⟩ | ⟨hresult, hn, hp, hlen⟩
    · refine h.pended hnodup hp ?_ ?_ ?_ ?_
      · simp only [lookUp, hresult, Function.update_self]
      · intro s hs
        simp only [lookUp, Function.update_of_ne hs]
      · simp only [lookUp, hresult]
      · simp only [lookUp, hresult, Bool.or_false]
    · refine h.overflow hn hp hlen ?_ ?_
      · simp only [lookUp, hresult, Function.update_eq_self]
      · simp only [lookUp, hresult, Bool.or_true]

end SymbolTable

end Qld.Symbols
