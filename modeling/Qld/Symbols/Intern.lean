import Qld.Lib.Numbering
import Qld.Symbols.Table

/-!
# Interning names in order

The sequential path of `symbols/table.rs`: `intern_name` looks a name up or gives it the next
ID, `intern_in_order` interns the jobs of a batch one after the other, and
`forget_names_from` takes the names of a batch back when the table is full.

* `Holds` — the slots of a shard are those of the names that a function gives a value;
* `Index`, `Rep` — the representation invariant: every name has exactly one slot, which holds
  its index;
* `internName_spec`, `internNames_spec` — interning a sequence appends its new
  names in order of first occurrence, and stops exactly when there are too many;
* `forgetNamesFrom_eq` — forgetting restores the slots.

The 64-bit name hash is an arbitrary function `hash`.  A new slot is put in front of the list
that models a `HashTable`; the table has no order of its own.
-/

namespace Qld.Symbols

open Qld.Lib

/-- The errors of the symbol table. -/
inductive Error where
  | limit (message : String)
  deriving DecidableEq, Repr

def overflow (limit : ℕ) : Error := .limit s!"more than {limit} distinct symbol names"

/-- One unit of work of a batch: usually the global symbols of one input file. -/
structure InternJob where
  /-- The input position of the file the names come from. -/
  position : ℕ
  names : List SymbolName
  /-- Receives the ID of each name. -/
  ids : List ℕ
  ids_length : ids.length = names.length

namespace SymbolTable

variable (hash : SymbolName → UInt64)

/-- Inserts a slot for a new name with the next ID. -/
def pushName (t : SymbolTable) (name : SymbolName) : SymbolTable :=
  let s := shardOf (hash name)
  let shard := t.shards s
  let slot : Slot := ⟨low32 (hash name), t.names.length⟩
  { t with
    shards := Function.update t.shards s { shard with table := slot :: shard.table }
    names := t.names ++ [name] }

/-- Looks up `name`, or gives it the next ID, without growing the per-symbol state. -/
def internName (t : SymbolTable) (name : SymbolName) : SymbolTable × Option ℕ :=
  let h32 := low32 (hash name)
  let next := t.names.length
  match findSlot (t.shards (shardOf (hash name))).table (tableHash h32) fun slot =>
      slot.h32 == h32 && t.names[slot.value]? == some name with
  | some slot => (t, some slot.value)
  | none => if t.limit ≤ next then (t, none) else (t.pushName hash name, some next)

/-- Appends default per-symbol state for `count` new symbols. -/
def growState (t : SymbolTable) (count : ℕ) : SymbolTable :=
  { t with
    flags := t.flags ++ List.replicate count 0
    defs := t.defs ++ List.replicate count .undefined }

/-- Interns one name; a new name gets the next ID. -/
def tryIntern (t : SymbolTable) (name : SymbolName) : SymbolTable × Except Error ℕ :=
  let before := t.names.length
  match t.internName hash name with
  | (t, none) => (t, .error (overflow t.limit))
  | (t, some id) => (if before < t.names.length then t.growState 1 else t, .ok id)

/-- Removes the slot of a value from the shard of its name, as `find_entry` finds it. -/
def removeSlot (shards : Fin SHARD_COUNT → Shard) (name : SymbolName) (value : ℕ) :
    Fin SHARD_COUNT → Shard :=
  let s := shardOf (hash name)
  let shard := shards s
  Function.update shards s
    { shard with
      table := shard.table.eraseP fun slot =>
        tableHash slot.h32 == tableHash (low32 (hash name)) && slot.value == value }

/-- Undoes `internName` for every ID from `base`. -/
def forgetNamesFrom (t : SymbolTable) (base : ℕ) : SymbolTable :=
  { t with
    shards := ((t.names.drop base).zipIdx base).foldl
      (fun shards entry => removeSlot hash shards entry.1 entry.2) t.shards
    names := t.names.take base }

/-- Interns names one after the other until the table is full. -/
def internNames (t : SymbolTable) : List SymbolName → SymbolTable × Option (List ℕ)
  | [] => (t, some [])
  | name :: names =>
    match t.internName hash name with
    | (t, none) => (t, none)
    | (t, some id) =>
      match internNames t names with
      | (t, none) => (t, none)
      | (t, some ids) => (t, some (id :: ids))

/-- The names of job `j`. -/
def jobNames (jobs : List InternJob) (j : ℕ) : List SymbolName :=
  (jobs[j]?.map InternJob.names).getD []

/-- Interns the jobs listed in `order`, with the IDs of each. -/
def internJobs (jobs : List InternJob) (t : SymbolTable) :
    List ℕ → SymbolTable × Option (List (ℕ × List ℕ))
  | [] => (t, some [])
  | j :: order =>
    match t.internNames hash (jobNames jobs j) with
    | (t, none) => (t, none)
    | (t, some ids) =>
      match internJobs jobs t order with
      | (t, none) => (t, none)
      | (t, some rest) => (t, some ((j, ids) :: rest))

/-- The `ids` of the jobs after some of them were written. -/
def writeJobs (jobs : List InternJob) (written : List (ℕ × List ℕ)) : List (List ℕ) :=
  jobs.zipIdx.map fun entry => (written.lookup entry.2).getD entry.1.ids

/-- Interns a batch whose jobs all have distinct positions on the calling thread: jobs in
position order (`order`), names in job order. -/
def internInOrder (t : SymbolTable) (jobs : List InternJob) (order : List ℕ) :
    SymbolTable × Except Error (List (List ℕ)) :=
  let base := t.names.length
  match t.internJobs hash jobs order with
  | (t, none) => (t.forgetNamesFrom hash base, .error (overflow t.limit))
  | (t, some written) => (t.growState (t.names.length - base), .ok (writeJobs jobs written))

end SymbolTable

/-! ### The pending bit -/

/-- `value & !PENDING`, on 32 bits. -/
def unpend (value : ℕ) : ℕ := value &&& (PENDING - 1)

variable {v : ℕ}

theorem and_pending_of_lt (h : v < PENDING) : v &&& PENDING = 0 := by
  apply Nat.eq_of_testBit_eq
  intro i
  rw [Nat.testBit_and, Nat.zero_testBit, PENDING, Nat.testBit_two_pow]
  by_cases hi : 31 = i
  · rw [← hi, Nat.testBit_lt_two_pow h, Bool.false_and]
  · rw [decide_eq_false hi, Bool.and_false]

theorem pending_or_eq (h : v < PENDING) : PENDING ||| v = PENDING + v := by
  have := Nat.two_pow_add_eq_or_of_lt h 1
  rw [Nat.mul_one] at this
  exact this.symm

theorem pending_or_and : (PENDING ||| v) &&& PENDING = PENDING := by
  apply Nat.eq_of_testBit_eq
  intro i
  rw [Nat.testBit_and, Nat.testBit_or]
  cases PENDING.testBit i <;> simp

theorem pending_or_and_ne : ((PENDING ||| v) &&& PENDING == 0) = false := by
  rw [pending_or_and]
  rfl

theorem unpend_pending_or (h : v < PENDING) : unpend (PENDING ||| v) = v := by
  rw [unpend, pending_or_eq h, PENDING, Nat.and_two_pow_sub_one_eq_mod, Nat.add_mod_left]
  exact Nat.mod_eq_of_lt h

theorem pending_or_inj {w : ℕ} (hv : v < PENDING) (hw : w < PENDING)
    (h : PENDING ||| v = PENDING ||| w) : v = w := by
  rw [pending_or_eq hv, pending_or_eq hw] at h
  omega

/-! ### What a shard holds -/

section Holds

variable {hash : SymbolName → UInt64} {s : Fin SHARD_COUNT} {f g : SymbolName → Option ℕ}
  {table : List Slot}

/-- The slots of shard `s` are those of its names that `f` gives a value, once each. -/
structure Holds (hash : SymbolName → UInt64) (s : Fin SHARD_COUNT)
    (f : SymbolName → Option ℕ) (table : List Slot) : Prop where
  nodup : table.Nodup
  mem : ∀ slot, slot ∈ table ↔
    ∃ n, f n = some slot.value ∧ shardOf (hash n) = s ∧ slot.h32 = low32 (hash n)

theorem Holds.congr (h : Holds hash s f table) (hfg : ∀ n, shardOf (hash n) = s → f n = g n) :
    Holds hash s g table := by
  refine ⟨h.nodup, fun slot => ?_⟩
  rw [h.mem]
  constructor
  · rintro ⟨n, hn, hs, h32⟩
    exact ⟨n, hfg n hs ▸ hn, hs, h32⟩
  · rintro ⟨n, hn, hs, h32⟩
    exact ⟨n, (hfg n hs).symm ▸ hn, hs, h32⟩

/-- **Finding a name.**  The hash is not assumed to tell names apart: the closure
compares them. -/
theorem Holds.find (h : Holds hash s f table) {n : SymbolName} (hs : shardOf (hash n) = s)
    (eq : Slot → Bool)
    (heq : ∀ slot ∈ table, slot.h32 = low32 (hash n) → (eq slot = true ↔ f n = some slot.value)) :
    findSlot table (tableHash (low32 (hash n)))
        (fun slot => slot.h32 == low32 (hash n) && eq slot) =
      (f n).map fun value => ⟨low32 (hash n), value⟩ := by
  cases hf : f n with
  | none =>
    rw [Option.map_none, findSlot, List.find?_eq_none]
    intro slot hslot hp
    simp only [Bool.and_eq_true, beq_iff_eq] at hp
    have := (heq slot hslot hp.2.1).mp hp.2.2
    rw [hf] at this
    exact absurd this (by simp)
  | some value =>
    rw [Option.map_some, findSlot]
    have hmem : (⟨low32 (hash n), value⟩ : Slot) ∈ table := (h.mem _).mpr ⟨n, hf, hs, rfl⟩
    cases hfind : table.find? fun slot =>
        tableHash slot.h32 == tableHash (low32 (hash n)) &&
          (slot.h32 == low32 (hash n) && eq slot) with
    | none =>
      rw [List.find?_eq_none] at hfind
      refine absurd ?_ (hfind _ hmem)
      simpa using (heq _ hmem rfl).mpr hf
    | some slot =>
      have hslot := List.mem_of_find?_eq_some hfind
      have hp := List.find?_some hfind
      simp only [Bool.and_eq_true, beq_iff_eq] at hp
      have hvalue := (heq slot hslot hp.2.1).mp hp.2.2
      rw [hf, Option.some.injEq] at hvalue
      obtain ⟨h32, v⟩ := slot
      simp only at hp hvalue
      rw [hp.2.1, hvalue]

theorem Holds.insert (h : Holds hash s f table) {n : SymbolName} (hs : shardOf (hash n) = s)
    (hf : f n = none) {value : ℕ} (hvalue : ∀ m, f m ≠ some value) :
    Holds hash s (Function.update f n (some value)) (⟨low32 (hash n), value⟩ :: table) := by
  refine ⟨List.nodup_cons.mpr ⟨?_, h.nodup⟩, fun slot => ?_⟩
  · rw [h.mem]
    rintro ⟨m, hm, -⟩
    exact hvalue m hm
  · rw [List.mem_cons, h.mem]
    constructor
    · rintro (rfl | ⟨m, hm, hms, h32⟩)
      · exact ⟨n, Function.update_self .., hs, rfl⟩
      · have hmn : m ≠ n := fun hmn => by rw [hmn, hf] at hm; exact absurd hm (by simp)
        exact ⟨m, by rw [Function.update_of_ne hmn, hm], hms, h32⟩
    · rintro ⟨m, hm, hms, h32⟩
      by_cases hmn : m = n
      · subst hmn
        rw [Function.update_self, Option.some.injEq] at hm
        obtain ⟨h, v⟩ := slot
        simp only at hm h32
        exact .inl (by rw [hm, h32])
      · rw [Function.update_of_ne hmn] at hm
        exact .inr ⟨m, hm, hms, h32⟩

theorem Holds.insert_other (h : Holds hash s f table) {n : SymbolName}
    (hs : shardOf (hash n) ≠ s) (value : Option ℕ) :
    Holds hash s (Function.update f n value) table := by
  refine h.congr fun m hm => ?_
  rw [Function.update_of_ne]
  rintro rfl
  exact hs hm

theorem Holds.map (h : Holds hash s f table) (r : ℕ → ℕ)
    (hr : ∀ m n v w, f m = some v → f n = some w → r v = r w → v = w) :
    Holds hash s (fun n => (f n).map r)
      (table.map fun slot => { slot with value := r slot.value }) := by
  refine ⟨h.nodup.map_on ?_, fun slot => ?_⟩
  · intro a ha b hb hab
    obtain ⟨m, hm, -, h32⟩ := (h.mem a).mp ha
    obtain ⟨n, hn, -, h32'⟩ := (h.mem b).mp hb
    simp only [Slot.mk.injEq] at hab
    obtain ⟨ha, va⟩ := a
    obtain ⟨hb, vb⟩ := b
    rw [Slot.mk.injEq]
    exact ⟨hab.1, hr m n va vb hm hn hab.2⟩
  · rw [List.mem_map]
    constructor
    · rintro ⟨a, ha, rfl⟩
      obtain ⟨n, hn, hs, h32⟩ := (h.mem a).mp ha
      exact ⟨n, by rw [hn, Option.map_some], hs, h32⟩
    · rintro ⟨n, hn, hs, h32⟩
      obtain ⟨v, hv, hrv⟩ := Option.map_eq_some_iff.mp hn
      refine ⟨⟨slot.h32, v⟩, (h.mem _).mpr ⟨n, hv, hs, h32⟩, ?_⟩
      simp only [hrv]

end Holds

/-! ### The representation invariant -/

/-- The ID of a name: its index. -/
def idOf (names : List SymbolName) (n : SymbolName) : Option ℕ :=
  if n ∈ names then some (names.idxOf n) else none

variable {names : List SymbolName} {n : SymbolName}

theorem idOf_of_mem (h : n ∈ names) :
    idOf names n = some (names.idxOf n) := if_pos h

theorem idOf_of_notMem (h : n ∉ names) :
    idOf names n = none := if_neg h

variable {i : ℕ}

theorem idOf_eq_some (hnodup : names.Nodup) :
    idOf names n = some i ↔ names[i]? = some n := by
  constructor
  · intro h
    unfold idOf at h
    split at h
    · next hmem =>
      rw [Option.some.injEq] at h
      rw [← h, List.getElem?_eq_getElem (List.idxOf_lt_length_of_mem hmem), List.getElem_idxOf]
    · exact absurd h (by simp)
  · intro h
    obtain ⟨hi, hget⟩ := List.getElem?_eq_some_iff.mp h
    rw [← hget, idOf_of_mem (List.getElem_mem hi), hnodup.idxOf_getElem]

theorem idOf_lt (h : idOf names n = some i) :
    i < names.length := by
  unfold idOf at h
  split at h
  · next hmem =>
    rw [Option.some.injEq] at h
    exact h ▸ List.idxOf_lt_length_of_mem hmem
  · exact absurd h (by simp)

theorem idOf_snoc_of_ne (names : List SymbolName) {m : SymbolName} (h : m ≠ n) :
    idOf (names ++ [n]) m = idOf names m := by
  by_cases hm : m ∈ names
  · rw [idOf_of_mem hm, idOf_of_mem (List.mem_append_left _ hm), List.idxOf_append_of_mem hm]
  · rw [idOf_of_notMem hm, idOf_of_notMem (by simp [hm, h])]

theorem idOf_snoc (h : n ∉ names) :
    idOf (names ++ [n]) = Function.update (idOf names) n (some names.length) := by
  funext m
  by_cases hmn : m = n
  · subst hmn
    rw [Function.update_self, idOf_of_mem (by simp), List.idxOf_append_of_notMem h]
    simp
  · rw [Function.update_of_ne hmn, idOf_snoc_of_ne names hmn]

/-- Every name is in the slots of its shard with its index, and nothing else is. -/
structure Index (hash : SymbolName → UInt64) (names : List SymbolName)
    (shards : Fin SHARD_COUNT → Shard) : Prop where
  nodup : names.Nodup
  holds : ∀ s, Holds hash s (idOf names) (shards s).table
  pending : ∀ s, (shards s).pending = []
  assigned : ∀ s, (shards s).assigned = []

/-- The representation invariant of the symbol table. -/
structure Rep (hash : SymbolName → UInt64) (t : SymbolTable) : Prop extends
    Index hash t.names t.shards where
  len_le : t.names.length ≤ MAX_SYMBOLS
  flags : t.flags.length = t.names.length
  defs : t.defs.length = t.names.length

/-- `HashTable::retain` on the slots of a shard. -/
def Shard.retain (p : Slot → Bool) (shard : Shard) : Shard :=
  { shard with table := shard.table.filter p }

variable {p : Slot → Bool} {shard : Shard}

theorem Shard.retain_congr {q : Slot → Bool} (h : ∀ slot ∈ shard.table, p slot = q slot) :
    shard.retain p = shard.retain q := by
  rw [Shard.retain, Shard.retain, List.filter_congr h]

theorem Shard.retain_retain (p q : Slot → Bool) (shard : Shard) :
    (shard.retain q).retain p = shard.retain fun slot => p slot && q slot := by
  simp only [Shard.retain, List.filter_filter]

theorem Shard.retain_eq_self (h : ∀ slot ∈ shard.table, p slot = true) :
    shard.retain p = shard := by
  rw [Shard.retain, List.filter_eq_self.mpr h]

/-- A shard with only its slots for the IDs below `base`. -/
def Shard.below (base : ℕ) (shard : Shard) : Shard :=
  shard.retain fun slot => decide (slot.value < base)

theorem Shard.below_below {base base' : ℕ} (h : base ≤ base') (shard : Shard) :
    (shard.below base').below base = shard.below base := by
  rw [Shard.below, Shard.below, Shard.below, Shard.retain_retain]
  refine Shard.retain_congr fun slot _ => ?_
  rw [← Bool.decide_and]
  congr 1
  rw [eq_iff_iff]
  omega

variable {hash : SymbolName → UInt64} {shards : Fin SHARD_COUNT → Shard}

theorem Index.value_lt (h : Index hash names shards) {s : Fin SHARD_COUNT} {slot : Slot}
    (hslot : slot ∈ (shards s).table) : slot.value < names.length := by
  obtain ⟨n, hn, -⟩ := ((h.holds s).mem slot).mp hslot
  exact idOf_lt hn

theorem Index.below (h : Index hash names shards) (s : Fin SHARD_COUNT) :
    (shards s).below names.length = shards s := by
  exact Shard.retain_eq_self fun slot hslot => decide_eq_true (h.value_lt hslot)

/-- The names `news` were interned into `t`, and the per-symbol state was left alone. -/
structure Extends (hash : SymbolName → UInt64) (t : SymbolTable) (news : List SymbolName)
    (t' : SymbolTable) : Prop where
  names : t'.names = t.names ++ news
  index : Index hash t'.names t'.shards
  flags : t'.flags = t.flags
  defs : t'.defs = t.defs
  limit : t'.limit = t.limit
  below : ∀ s, (t'.shards s).below t.names.length = t.shards s

namespace Extends

variable {hash : SymbolName → UInt64} {t t' t'' : SymbolTable} {news news' : List SymbolName}

theorem refl (h : Index hash t.names t.shards) : Extends hash t [] t :=
  ⟨(List.append_nil _).symm, h, rfl, rfl, rfl, h.below⟩

theorem trans (h : Extends hash t news t') (h' : Extends hash t' news' t'') :
    Extends hash t (news ++ news') t'' := by
  refine ⟨by rw [h'.names, h.names, List.append_assoc], h'.index, h'.flags.trans h.flags,
    h'.defs.trans h.defs, h'.limit.trans h.limit, fun s => ?_⟩
  have hle : t.names.length ≤ t'.names.length := by
    rw [h.names, List.length_append]
    exact Nat.le_add_right _ _
  rw [← Shard.below_below hle, h'.below, h.below]

end Extends

namespace SymbolTable

variable {hash : SymbolName → UInt64}

/-! ### Interning in order -/

variable {names : List SymbolName} {shards : Fin SHARD_COUNT → Shard}

theorem find_name (h : Index hash names shards) (n : SymbolName) :
    findSlot (shards (shardOf (hash n))).table (tableHash (low32 (hash n)))
        (fun slot => slot.h32 == low32 (hash n) && names[slot.value]? == some n) =
      (idOf names n).map fun value => ⟨low32 (hash n), value⟩ := by
  refine (h.holds _).find rfl (fun slot => names[slot.value]? == some n) fun slot _ _ => ?_
  rw [beq_iff_eq, idOf_eq_some h.nodup]

variable {t : SymbolTable} {n : SymbolName}

theorem internName_of_mem (h : Index hash t.names t.shards) (hn : n ∈ t.names) :
    t.internName hash n = (t, some (t.names.idxOf n)) := by
  simp only [internName, find_name h, idOf_of_mem hn, Option.map_some]

theorem internName_of_full (h : Index hash t.names t.shards) (hn : n ∉ t.names)
    (hfull : t.limit ≤ t.names.length) :
    t.internName hash n = (t, none) := by
  simp only [internName, find_name h, idOf_of_notMem hn, Option.map_none, if_pos hfull]

theorem internName_of_new (h : Index hash t.names t.shards) (hn : n ∉ t.names)
    (hlt : t.names.length < t.limit) :
    t.internName hash n = (t.pushName hash n, some t.names.length) := by
  simp only [internName, find_name h, idOf_of_notMem hn, Option.map_none,
    if_neg (Nat.not_le_of_lt hlt)]

theorem pushName_shards (t : SymbolTable) (n : SymbolName) (s : Fin SHARD_COUNT) :
    (t.pushName hash n).shards s = if s = shardOf (hash n) then
      { t.shards s with table := ⟨low32 (hash n), t.names.length⟩ :: (t.shards s).table }
      else t.shards s := by
  simp only [pushName, Function.update_apply]
  split
  · next hs => rw [hs]
  · rfl

/-- A new name is appended, in front of the slots of its shard. -/
theorem pushName_extends (h : Index hash t.names t.shards) (hn : n ∉ t.names) :
    Extends hash t [n] (t.pushName hash n) := by
  have hnodup : (t.names ++ [n]).Nodup := by
    rw [List.nodup_append_comm]
    exact List.nodup_cons.mpr ⟨hn, h.nodup⟩
  have hshard : ∀ s, Holds hash s (idOf (t.names ++ [n])) ((t.pushName hash n).shards s).table ∧
      ((t.pushName hash n).shards s).pending = [] ∧
      ((t.pushName hash n).shards s).assigned = [] ∧
      ((t.pushName hash n).shards s).below t.names.length = t.shards s := by
    intro s
    rw [idOf_snoc hn, pushName_shards]
    by_cases hs : s = shardOf (hash n)
    · subst hs
      rw [if_pos rfl]
      refine ⟨(h.holds _).insert rfl (idOf_of_notMem hn) fun m hm => Nat.lt_irrefl _ (idOf_lt hm),
        h.pending _, h.assigned _, ?_⟩
      conv_rhs => rw [← h.below (shardOf (hash n))]
      simp [Shard.below, Shard.retain]
    · rw [if_neg hs]
      exact ⟨(h.holds s).insert_other (Ne.symm hs) _, h.pending s, h.assigned s, h.below s⟩
  exact ⟨rfl, ⟨hnodup, fun s => (hshard s).1, fun s => (hshard s).2.1, fun s => (hshard s).2.2.1⟩,
    rfl, rfl, rfl, fun s => (hshard s).2.2.2⟩

/-- **Interning a sequence.**  If the new names fit, they are appended in order of
first occurrence and every name gets its index; if they do not, interning stops on the way. -/
theorem internNames_spec (xs : List SymbolName) : ∀ {t : SymbolTable},
    Index hash t.names t.shards →
    ((fresh t.names xs).length ≤ t.limit - t.names.length →
      ∃ t', t.internNames hash xs = (t', some (xs.map t'.names.idxOf)) ∧
        Extends hash t (fresh t.names xs) t') ∧
    (¬ (fresh t.names xs).length ≤ t.limit - t.names.length →
      ∃ t' news, t.internNames hash xs = (t', none) ∧ Extends hash t news t') := by
  induction xs with
  | nil =>
    intro t h
    exact ⟨fun _ => ⟨t, rfl, .refl h⟩, fun hnot => absurd (Nat.zero_le _) hnot⟩
  | cons n xs ih =>
    intro t h
    rw [fresh]
    by_cases hn : n ∈ t.names
    · rw [if_pos hn]
      obtain ⟨hfit, hfull⟩ := ih h
      constructor
      · intro hle
        obtain ⟨t', ht', hext⟩ := hfit hle
        refine ⟨t', ?_, hext⟩
        simp only [internNames, internName_of_mem h hn, ht']
        rw [List.map_cons, hext.names, List.idxOf_append_of_mem hn]
      · intro hnot
        obtain ⟨t', news, ht', hext⟩ := hfull hnot
        refine ⟨t', news, ?_, hext⟩
        simp only [internNames, internName_of_mem h hn, ht']
    · rw [if_neg hn]
      by_cases hlt : t.names.length < t.limit
      · have hext₁ := pushName_extends h hn
        obtain ⟨hfit, hfull⟩ := ih hext₁.index
        rw [hext₁.names, hext₁.limit, List.length_append, List.length_singleton] at hfit hfull
        rw [List.length_cons]
        constructor
        · intro hle
          obtain ⟨t', ht', hext⟩ := hfit (by omega)
          refine ⟨t', ?_, hext₁.trans hext⟩
          have hidx : t'.names.idxOf n = t.names.length := by
            rw [hext.names, hext₁.names, List.append_assoc, List.idxOf_append_of_notMem hn]
            simp
          simp only [internNames, internName_of_new h hn hlt, ht']
          rw [List.map_cons, hidx]
        · intro hnot
          obtain ⟨t', news, ht', hext⟩ := hfull (by omega)
          refine ⟨t', [n] ++ news, ?_, hext₁.trans hext⟩
          simp only [internNames, internName_of_new h hn hlt, ht']
      · rw [List.length_cons]
        refine ⟨fun hle => by omega, fun _ => ⟨t, [], ?_, .refl h⟩⟩
        simp only [internNames, internName_of_full h hn (Nat.le_of_not_lt hlt)]

/-! ### Forgetting -/

theorem eraseP_eq_filter {α : Type*} {p : α → Bool} {l : List α} (hnodup : l.Nodup)
    (hp : ∀ a ∈ l, ∀ b ∈ l, p a = true → p b = true → a = b) :
    l.eraseP p = l.filter fun a => !p a := by
  induction l with
  | nil => rfl
  | cons a l ih =>
    obtain ⟨ha, hl⟩ := List.nodup_cons.mp hnodup
    by_cases hpa : p a = true
    · rw [List.eraseP_cons_of_pos hpa, List.filter_cons, hpa]
      symm
      rw [Bool.not_true, if_neg Bool.false_ne_true, List.filter_eq_self]
      intro b hb
      rw [Bool.not_eq_true']
      by_contra hpb
      rw [Bool.not_eq_false] at hpb
      exact ha (hp a List.mem_cons_self b (List.mem_cons_of_mem _ hb) hpa hpb ▸ hb)
    · rw [List.eraseP_cons_of_neg hpa, List.filter_cons, if_pos (by simpa using hpa)]
      rw [ih hl fun b hb c hc => hp b (List.mem_cons_of_mem _ hb) c (List.mem_cons_of_mem _ hc)]

/-- Removing the slots of the names from `done.length` on, one after the other. -/
theorem foldl_removeSlot (h : Index hash names shards) (base : ℕ) (rest : List SymbolName) :
    ∀ done : List SymbolName, names = done ++ rest → base ≤ done.length →
      ∀ shards' : Fin SHARD_COUNT → Shard,
        (∀ s, shards' s = (shards s).retain fun slot =>
          decide (slot.value < base ∨ done.length ≤ slot.value)) →
        ∀ s, (rest.zipIdx done.length).foldl
            (fun shards entry => removeSlot hash shards entry.1 entry.2) shards' s =
          (shards s).below base := by
  induction rest with
  | nil =>
    intro done hdone _ shards' hshards s
    rw [List.append_nil] at hdone
    rw [List.zipIdx_nil, List.foldl_nil, hshards, Shard.below]
    refine Shard.retain_congr fun slot hslot => ?_
    have := h.value_lt hslot
    rw [hdone] at this
    congr 1
    rw [eq_iff_iff]
    omega
  | cons n rest ih =>
    intro done hdone hbase shards' hshards s
    rw [List.zipIdx_cons, List.foldl_cons]
    have hlen : (done ++ [n]).length = done.length + 1 := by simp
    rw [← hlen]
    refine ih (done ++ [n]) (by rw [hdone]; simp) (by omega) _ (fun s => ?_) s
    -- One slot of the shard of `n` holds the value, and no other shard has it.
    have hget : names[done.length]? = some n := by rw [hdone]; simp
    have hvalue : ∀ {s slot}, slot ∈ (shards s).table → slot.value = done.length →
        shardOf (hash n) = s ∧ slot.h32 = low32 (hash n) := by
      intro s slot hslot hv
      obtain ⟨m, hm, hms, h32⟩ := ((h.holds s).mem slot).mp hslot
      rw [hv, idOf_eq_some h.nodup, hget, Option.some.injEq] at hm
      exact hm ▸ ⟨hms, h32⟩
    rw [removeSlot, hlen]
    by_cases hs : s = shardOf (hash n)
    · subst hs
      rw [Function.update_self, hshards]
      simp only [Shard.retain]
      rw [eraseP_eq_filter ((h.holds _).nodup.filter _)]
      · rw [List.filter_filter]
        refine Shard.retain_congr fun slot hslot => ?_
        by_cases hv : slot.value = done.length
        · simp [hv, (hvalue hslot hv).2, Nat.not_lt_of_le hbase]
        · rw [beq_false_of_ne hv, Bool.and_false, Bool.not_false, Bool.true_and]
          congr 1
          rw [eq_iff_iff]
          omega
      · intro a ha b hb hpa hpb
        simp only [Bool.and_eq_true, beq_iff_eq] at hpa hpb
        have ha' := (hvalue (List.mem_of_mem_filter ha) hpa.2).2
        have hb' := (hvalue (List.mem_of_mem_filter hb) hpb.2).2
        obtain ⟨ha32, va⟩ := a
        obtain ⟨hb32, vb⟩ := b
        simp only at ha' hb' hpa hpb
        rw [ha', hb', hpa.2, hpb.2]
    · rw [Function.update_of_ne hs, hshards]
      refine Shard.retain_congr fun slot hslot => ?_
      have hv : slot.value ≠ done.length := fun hv => hs (hvalue hslot hv).1.symm
      congr 1
      rw [eq_iff_iff]
      omega

/-- **Forgetting restores the table.** -/
theorem forgetNamesFrom_eq {t t' : SymbolTable} {news : List SymbolName}
    (h : Extends hash t news t') : t'.forgetNamesFrom hash t.names.length = t := by
  have hdrop : t'.names.drop t.names.length = news := by
    rw [h.names, List.drop_left]
  have htake : t'.names.take t.names.length = t.names := by
    rw [h.names, List.take_left]
  have hshards := foldl_removeSlot h.index t.names.length news t.names h.names le_rfl t'.shards
    fun s => (Shard.retain_eq_self fun slot _ => decide_eq_true (by omega)).symm
  unfold forgetNamesFrom
  rw [hdrop, htake]
  have hfun : (news.zipIdx t.names.length).foldl
      (fun shards entry => removeSlot hash shards entry.1 entry.2) t'.shards = t.shards := by
    funext s
    rw [hshards s, h.below]
  rw [hfun]
  obtain ⟨shards, names, flags, defs, limit, hle⟩ := t
  obtain ⟨shards', names', flags', defs', limit', hle'⟩ := t'
  obtain ⟨-, -, hflags, hdefs, hlimit, -⟩ := h
  simp only at hflags hdefs hlimit
  subst hflags hdefs hlimit
  rfl

end SymbolTable

/-! ### The outcome of a batch -/

/-- The new names of a sequence fit below the limit. -/
def Fits (t : SymbolTable) (xs : List SymbolName) : Prop :=
  (fresh t.names xs).length ≤ t.limit - t.names.length

/-- The names `news` were added to `t`, with default state. -/
structure Interned (hash : SymbolName → UInt64) (t : SymbolTable) (news : List SymbolName)
    (t' : SymbolTable) : Prop where
  rep : Rep hash t'
  names : t'.names = t.names ++ news
  flags : t'.flags = t.flags ++ List.replicate news.length 0
  defs : t'.defs = t.defs ++ List.replicate news.length .undefined
  limit : t'.limit = t.limit

/-- The IDs that the names of the jobs have in a list of names. -/
def jobIds (names : List SymbolName) (jobs : List InternJob) : List (List ℕ) :=
  jobs.map fun job => job.names.map names.idxOf

theorem Index.growState {hash : SymbolName → UInt64} {t t' : SymbolTable}
    {news : List SymbolName} (h : Rep hash t) (hindex : Index hash t'.names t'.shards)
    (hnames : t'.names = t.names ++ news) (hflags : t'.flags = t.flags) (hdefs : t'.defs = t.defs)
    (hlimit : t'.limit = t.limit) (hfit : news.length ≤ t.limit - t.names.length) :
    Interned hash t news (t'.growState news.length) := by
  have hlen : t'.names.length = t.names.length + news.length := by
    rw [hnames, List.length_append]
  have hle : t'.names.length ≤ MAX_SYMBOLS := by
    have h1 := h.len_le
    have h2 := t.limit_le
    omega
  refine ⟨⟨hindex, hle, ?_, ?_⟩, hnames, ?_, ?_, hlimit⟩
  · show (t'.flags ++ List.replicate news.length 0).length = t'.names.length
    rw [List.length_append, List.length_replicate, hflags, h.flags, hlen]
  · show (t'.defs ++ List.replicate news.length DefCell.undefined).length = t'.names.length
    rw [List.length_append, List.length_replicate, hdefs, h.defs, hlen]
  · show t'.flags ++ _ = _
    rw [hflags]
  · show t'.defs ++ _ = _
    rw [hdefs]

theorem Extends.growState {hash : SymbolName → UInt64} {t t' : SymbolTable}
    {news : List SymbolName} (h : Rep hash t) (hext : Extends hash t news t')
    (hfit : news.length ≤ t.limit - t.names.length) :
    Interned hash t news (t'.growState news.length) :=
  hext.index.growState h hext.names hext.flags hext.defs hext.limit hfit

namespace SymbolTable

variable {hash : SymbolName → UInt64}

theorem growState_zero (t : SymbolTable) : t.growState 0 = t := by
  simp [growState]

theorem map_idxOf_extends {t t' : SymbolTable} {news : List SymbolName}
    (h : Extends hash t news t') {xs : List SymbolName} (hxs : ∀ x ∈ xs, x ∈ t.names) :
    xs.map t'.names.idxOf = xs.map t.names.idxOf := by
  refine List.map_congr_left fun x hx => ?_
  rw [h.names, List.idxOf_append_of_mem (hxs x hx)]

theorem mem_append_fresh {names xs : List SymbolName} {x : SymbolName} (hx : x ∈ xs) :
    x ∈ names ++ fresh names xs := by
  rw [List.mem_append, mem_fresh]
  tauto

theorem internJobs_spec (jobs : List InternJob) (order : List ℕ) : ∀ {t : SymbolTable},
    Index hash t.names t.shards →
    (Fits t (order.flatMap (jobNames jobs)) →
      ∃ t', t.internJobs hash jobs order =
          (t', some (order.map fun j => (j, (jobNames jobs j).map t'.names.idxOf))) ∧
        Extends hash t (fresh t.names (order.flatMap (jobNames jobs))) t') ∧
    (¬ Fits t (order.flatMap (jobNames jobs)) →
      ∃ t' news, t.internJobs hash jobs order = (t', none) ∧ Extends hash t news t') := by
  induction order with
  | nil =>
    intro t h
    exact ⟨fun _ => ⟨t, rfl, .refl h⟩, fun hnot => absurd (Nat.zero_le _) hnot⟩
  | cons j order ih =>
    intro t h
    obtain ⟨hfit₁, hfull₁⟩ := @internNames_spec hash (jobNames jobs j) t h
    unfold Fits
    rw [List.flatMap_cons, fresh_append, List.length_append]
    by_cases h₁ : (fresh t.names (jobNames jobs j)).length ≤ t.limit - t.names.length
    · obtain ⟨t₁, ht₁, hext₁⟩ := hfit₁ h₁
      obtain ⟨hfit, hfull⟩ := ih hext₁.index
      unfold Fits at hfit hfull
      rw [hext₁.limit, hext₁.names, List.length_append] at hfit hfull
      constructor
      · intro hle
        obtain ⟨t', ht', hext⟩ := hfit (by omega)
        refine ⟨t', ?_, hext₁.trans hext⟩
        have hids := @map_idxOf_extends hash _ _ _ hext (jobNames jobs j) fun x hx => by
          rw [hext₁.names]
          exact mem_append_fresh hx
        simp only [internJobs, ht₁, ht', List.map_cons, hids]
      · intro hnot
        by_cases hzero : (fresh (t.names ++ fresh t.names (jobNames jobs j))
            (order.flatMap (jobNames jobs))).length ≤
              t.limit - (t.names.length + (fresh t.names (jobNames jobs j)).length)
        · omega
        · obtain ⟨t', news, ht', hext⟩ := hfull hzero
          refine ⟨t', _, ?_, hext₁.trans hext⟩
          simp only [internJobs, ht₁, ht']
    · refine ⟨fun hle => by omega, fun _ => ?_⟩
      obtain ⟨t', news, ht', hext⟩ := hfull₁ h₁
      refine ⟨t', news, ?_, hext⟩
      simp only [internJobs, ht']

theorem writeJobs_eq (jobs : List InternJob) {order : List ℕ}
    (horder : order.Perm (List.range jobs.length)) (names : List SymbolName) :
    writeJobs jobs (order.map fun j => (j, (jobNames jobs j).map names.idxOf)) =
      jobIds names jobs := by
  have hlookup : ∀ (order : List ℕ) (j : ℕ), j ∈ order →
      (order.map fun j => (j, (jobNames jobs j).map names.idxOf)).lookup j =
        some ((jobNames jobs j).map names.idxOf) := by
    intro order j hj
    induction order with
    | nil => exact absurd hj List.not_mem_nil
    | cons i order ih =>
      rw [List.map_cons, List.lookup_cons]
      by_cases hij : j = i
      · subst hij
        rw [beq_self_eq_true]
      · rw [beq_false_of_ne hij]
        exact ih ((List.mem_cons.mp hj).resolve_left hij)
  apply List.ext_getElem?
  intro j
  rw [writeJobs, jobIds, List.getElem?_map, List.getElem?_map, List.getElem?_zipIdx,
    Option.map_map]
  cases hjob : jobs[j]? with
  | none => rfl
  | some job =>
    have hj : j ∈ order := horder.mem_iff.mpr
      (List.mem_range.mpr (List.getElem?_eq_some_iff.mp hjob).1)
    rw [Option.map_some, Option.map_some, Function.comp_apply, Nat.zero_add, hlookup order j hj,
      Option.getD_some, jobNames, hjob, Option.map_some, Option.getD_some]

/-- **Interning a batch in order.** -/
theorem internInOrder_spec {t : SymbolTable} (h : Rep hash t) (jobs : List InternJob)
    {order : List ℕ} (horder : order.Perm (List.range jobs.length)) :
    (Fits t (order.flatMap (jobNames jobs)) →
      ∃ t', t.internInOrder hash jobs order = (t', .ok (jobIds t'.names jobs)) ∧
        Interned hash t (fresh t.names (order.flatMap (jobNames jobs))) t') ∧
    (¬ Fits t (order.flatMap (jobNames jobs)) →
      t.internInOrder hash jobs order = (t, .error (overflow t.limit))) := by
  obtain ⟨hfit, hfull⟩ := @internJobs_spec hash jobs order t h.toIndex
  constructor
  · intro hle
    obtain ⟨t', ht', hext⟩ := hfit hle
    have hcount : t'.names.length - t.names.length =
        (fresh t.names (order.flatMap (jobNames jobs))).length := by
      rw [hext.names, List.length_append, Nat.add_sub_cancel_left]
    refine ⟨t'.growState _, ?_, hext.growState h hle⟩
    simp only [internInOrder, ht', hcount, writeJobs_eq jobs horder]
    rfl
  · intro hnot
    obtain ⟨t', news, ht', hext⟩ := hfull hnot
    simp only [internInOrder, ht', forgetNamesFrom_eq hext, hext.limit]

/-- **Interning one name.** -/
theorem tryIntern_spec {t : SymbolTable} (h : Rep hash t) (n : SymbolName) :
    (Fits t [n] → ∃ t', t.tryIntern hash n = (t', .ok (t'.names.idxOf n)) ∧
      Interned hash t (fresh t.names [n]) t') ∧
    (¬ Fits t [n] → t.tryIntern hash n = (t, .error (overflow t.limit))) := by
  unfold Fits
  by_cases hn : n ∈ t.names
  · have hfresh : fresh t.names [n] = [] := by rw [fresh, if_pos hn, fresh]
    rw [hfresh]
    refine ⟨fun hfit => ⟨t, ?_, ?_⟩, fun hnot => absurd (Nat.zero_le _) hnot⟩
    · simp only [tryIntern, internName_of_mem h.toIndex hn, Nat.lt_irrefl, if_false]
    · have := (Extends.refl h.toIndex).growState h hfit
      rwa [List.length_nil, growState_zero] at this
  · have hfresh : fresh t.names [n] = [n] := by rw [fresh, if_neg hn, fresh]
    rw [hfresh]
    by_cases hlt : t.names.length < t.limit
    · refine ⟨fun hfit => ?_, fun hnot => absurd (show 1 ≤ _ by omega) hnot⟩
      have hext := pushName_extends h.toIndex hn
      have hidx : (t.pushName hash n).names.idxOf n = t.names.length := by
        rw [hext.names, List.idxOf_append_of_notMem hn]
        simp
      refine ⟨(t.pushName hash n).growState 1, ?_, hext.growState h hfit⟩
      have hlonger : t.names.length < (t.pushName hash n).names.length := by
        rw [hext.names]
        simp
      simp only [tryIntern, internName_of_new h.toIndex hn hlt, if_pos hlonger]
      rw [← hidx]
      rfl
    · refine ⟨fun hfit => absurd hfit (show ¬ 1 ≤ _ by omega), fun _ => ?_⟩
      simp only [tryIntern, internName_of_full h.toIndex hn (Nat.le_of_not_lt hlt)]

end SymbolTable

end Qld.Symbols
