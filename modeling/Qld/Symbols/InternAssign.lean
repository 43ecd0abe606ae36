import Qld.Symbols.InternPending

/-!
# Numbering the pending names

Passes 2 and 3 of the general interning path, after `lookUpAll_inv`.

* `gathered` — the names that wait, shard after shard; they are the new names of the batch;
* `assignIds_getElem?`, `finishShard_table` — the numbers a shard is given, and the slots it is
  left with;
* `resolve_eq` — a provisional handle resolves to the index of its name;
* `internPending_spec` — the outcome of the three passes.
-/

namespace Qld.Symbols.SymbolTable

open Qld.Lib

variable {hash : SymbolName → UInt64} {t : SymbolTable} {done : List Request} {state : Pass1}

/-! ### The names that wait -/

/-- The names of the active shards. -/
def gathered (shards : Fin SHARD_COUNT → Shard) : List SymbolName :=
  (activeShards shards).flatMap fun s => pendingNames (shards s)

variable {shards : Fin SHARD_COUNT → Shard} {s : Fin SHARD_COUNT}

theorem mem_activeShards :
    s ∈ activeShards shards ↔ (shards s).pending ≠ [] := by
  simp [activeShards]

variable {n : SymbolName}

theorem mem_gathered :
    n ∈ gathered shards ↔ ∃ s, n ∈ pendingNames (shards s) := by
  rw [gathered, List.mem_flatMap]
  constructor
  · rintro ⟨s, -, hn⟩
    exact ⟨s, hn⟩
  · rintro ⟨s, hn⟩
    refine ⟨s, mem_activeShards.mpr fun hnil => ?_, hn⟩
    rw [pendingNames, hnil] at hn
    exact absurd hn List.not_mem_nil

theorem nodup_gathered (h : Pass1Inv hash t done state) : (gathered state.shards).Nodup := by
  rw [gathered, List.nodup_flatMap]
  refine ⟨fun s _ => (h.shard s).nodup, ?_⟩
  refine ((List.nodup_finRange _).filter _).imp fun {a b} hab => ?_
  intro n hna hnb
  exact hab (((h.shard a).mem n hna).2.symm.trans ((h.shard b).mem n hnb).2)

/-- **Without overflow, the names that wait are the new ones.** -/
theorem gathered_perm (h : Pass1Inv hash t done state) (hok : state.overflowed = false) :
    (gathered state.shards).Perm (fresh t.names (done.map Request.name)) := by
  rw [List.perm_ext_iff_of_nodup (nodup_gathered h) (nodup_fresh _ _)]
  intro n
  rw [mem_gathered, mem_fresh, List.mem_map]
  constructor
  · rintro ⟨s, hn⟩
    exact ⟨h.seen s n hn, ((h.shard s).mem n hn).1⟩
  · rintro ⟨⟨r, hr, rfl⟩, hnew⟩
    exact ⟨_, (h.complete hok r hr).resolve_left hnew⟩

/-- A full pending list means that the batch does not fit. -/
theorem not_fits_of_overflowed (h : Pass1Inv hash t done state)
    (hover : state.overflowed = true) : ¬ Fits t (done.map Request.name) := by
  obtain ⟨r, hr, hn, hp, hlen⟩ := h.full hover
  have hnodup : (r.name :: pendingNames (state.shards (shardOf (hash r.name)))).Nodup :=
    List.nodup_cons.mpr ⟨hp, (h.shard _).nodup⟩
  have hsub : r.name :: pendingNames (state.shards (shardOf (hash r.name))) ⊆
      fresh t.names (done.map Request.name) := by
    intro n hmem
    rw [mem_fresh, List.mem_map]
    rcases List.mem_cons.mp hmem with rfl | hmem
    · exact ⟨⟨r, hr, rfl⟩, hn⟩
    · exact ⟨h.seen _ n hmem, ((h.shard _).mem n hmem).1⟩
  have hle := (List.subperm_of_subset hnodup hsub).length_le
  rw [List.length_cons, pendingNames_length, hlen] at hle
  have hlimit : t.limit ≤ PENDING := t.limit_le
  unfold Fits
  omega

theorem newCount_eq (shards : Fin SHARD_COUNT → Shard) :
    ((activeShards shards).map fun s => (shards s).pending.length).sum =
      (gathered shards).length := by
  rw [gathered, List.length_flatMap]
  simp only [pendingNames_length]

/-! ### Sorting -/

theorem entryName_eq {e : PendingEntry} (h : (pendingNames (shards e.2.1))[e.2.2]? = some n) :
    entryName shards e = n := by
  rw [pendingNames, List.getElem?_map] at h
  rw [entryName, h, Option.getD_some]

theorem mem_pendingEntries {e : PendingEntry} :
    e ∈ pendingEntries shards (activeShards shards) ↔
      ∃ record, (shards e.2.1).pending[e.2.2]? = some record ∧ record.first = e.1 := by
  rw [pendingEntries, List.mem_flatMap]
  constructor
  · rintro ⟨s, -, hmem⟩
    obtain ⟨⟨record, l⟩, hrecord, rfl⟩ := List.mem_map.mp hmem
    exact ⟨record, List.mk_mem_zipIdx_iff_getElem?.mp hrecord, rfl⟩
  · rintro ⟨record, hrecord, hfirst⟩
    refine ⟨e.2.1, mem_activeShards.mpr fun hnil => ?_, List.mem_map.mpr ⟨(record, e.2.2), ?_, ?_⟩⟩
    · rw [hnil] at hrecord
      exact absurd hrecord (by simp)
    · exact List.mk_mem_zipIdx_iff_getElem?.mpr hrecord
    · rw [hfirst]

theorem map_entryName (shards : Fin SHARD_COUNT → Shard) :
    (pendingEntries shards (activeShards shards)).map (entryName shards) = gathered shards := by
  rw [pendingEntries, gathered, List.map_flatMap]
  congr 1
  funext s
  apply List.ext_getElem?
  intro l
  rw [List.map_map, List.getElem?_map, List.getElem?_zipIdx, pendingNames, List.getElem?_map]
  cases hrecord : (shards s).pending[l]? with
  | none => rfl
  | some record =>
    rw [Option.map_some, Option.map_some, Option.map_some, Function.comp_apply, Option.some.injEq]
    refine entryName_eq ?_
    rw [pendingNames, List.getElem?_map, Nat.zero_add, hrecord, Option.map_some]

/-- The new names in the order of their IDs. -/
def sortedNames (shards : Fin SHARD_COUNT → Shard) : List SymbolName :=
  (sortedEntries shards (activeShards shards)).map (entryName shards)

theorem sortedEntries_perm (shards : Fin SHARD_COUNT → Shard) :
    (sortedEntries shards (activeShards shards)).Perm
      (pendingEntries shards (activeShards shards)) :=
  List.perm_insertionSort _ _

theorem sortedNames_perm (shards : Fin SHARD_COUNT → Shard) :
    (sortedNames shards).Perm (gathered shards) := by
  rw [← map_entryName]
  exact (sortedEntries_perm shards).map _

theorem nodup_sortedNames (h : Pass1Inv hash t done state) : (sortedNames state.shards).Nodup :=
  (sortedNames_perm _).nodup_iff.mpr (nodup_gathered h)

theorem mem_sortedNames :
    n ∈ sortedNames shards ↔ ∃ s, n ∈ pendingNames (shards s) := by
  rw [(sortedNames_perm shards).mem_iff, mem_gathered]

/-- What decides between two new names. -/
def BeforeBy (done : List Request) (m n : SymbolName) : Prop :=
  ∀ first first', FirstOf done m first → FirstOf done n first' →
    toLex (first, m.contents) ≤ toLex (first', n.contents)

theorem FirstOf.unique {first first' : Occurrence} (h : FirstOf done n first)
    (h' : FirstOf done n first') : first = first' := by
  obtain ⟨⟨r, hr, hrn, hro⟩, hmin⟩ := h
  obtain ⟨⟨r', hr', hrn', hro'⟩, hmin'⟩ := h'
  exact le_antisymm (hro' ▸ hmin r' hr' hrn') (hro ▸ hmin' r hr hrn)

/-- The new names are numbered by first occurrence, then by contents. -/
theorem sortedNames_sorted (h : Pass1Inv hash t done state) (hok : state.overflowed = false) :
    (sortedNames state.shards).Pairwise (BeforeBy done) := by
  rw [sortedNames, List.pairwise_map]
  have hsorted : (sortedEntries state.shards (activeShards state.shards)).Pairwise fun a b =>
      entryKey state.shards a ≤ entryKey state.shards b := by
    have htotal : Std.Total fun a b : PendingEntry =>
        entryKey state.shards a ≤ entryKey state.shards b := ⟨fun a b => le_total _ _⟩
    have htrans : IsTrans PendingEntry fun a b =>
        entryKey state.shards a ≤ entryKey state.shards b := ⟨fun a b c => le_trans⟩
    exact List.pairwise_insertionSort _ _
  -- An entry carries the first occurrence of its name.
  have hfirst : ∀ e ∈ sortedEntries state.shards (activeShards state.shards),
      FirstOf done (entryName state.shards e) e.1 := by
    intro e he
    obtain ⟨record, hrecord, hfst⟩ :=
      mem_pendingEntries.mp ((sortedEntries_perm _).mem_iff.mp he)
    have hname : entryName state.shards e = record.name :=
      entryName_eq (by rw [pendingNames, List.getElem?_map, hrecord, Option.map_some])
    rw [hname, ← hfst]
    exact h.firsts hok _ record (List.mem_of_getElem? hrecord)
  refine hsorted.imp_of_mem fun {a b} ha hb hab first first' hf hf' => ?_
  rw [hf.unique (hfirst a ha), hf'.unique (hfirst b hb)]
  exact hab

/-! ### Numbering -/

theorem assignIds_of_notMem {l : ℕ} (order : List PendingEntry) :
    ∀ (id : ℕ) (assigned : List ℕ), (∀ e ∈ order, e.2 ≠ (s, l)) →
      (assignIds s order id assigned)[l]? = assigned[l]? := by
  induction order with
  | nil => intro id assigned _; rfl
  | cons e order ih =>
    intro id assigned hnot
    rw [assignIds, ih _ _ fun e he => hnot e (List.mem_cons_of_mem _ he)]
    split
    · next hs =>
      refine List.getElem?_set_ne fun hl => hnot e List.mem_cons_self ?_
      rw [← hs, ← hl]
    · rfl

theorem assignIds_getElem? {l : ℕ} (order : List PendingEntry) :
    ∀ (id : ℕ) (assigned : List ℕ), (order.map Prod.snd).Nodup → l < assigned.length →
      ∀ {rank : ℕ} {e : PendingEntry}, order[rank]? = some e → e.2 = (s, l) →
      (assignIds s order id assigned)[l]? = some (id + rank) := by
  induction order with
  | nil => intro id assigned _ _ rank e he; simp at he
  | cons first order ih =>
    intro id assigned hnodup hl rank e he hel
    rw [List.map_cons, List.nodup_cons] at hnodup
    rw [assignIds]
    cases rank with
    | zero =>
      rw [List.getElem?_cons_zero, Option.some.injEq] at he
      subst he
      rw [assignIds_of_notMem, hel, if_pos rfl, List.getElem?_set_self hl, Nat.add_zero]
      intro e' he' heq
      exact hnodup.1 (hel.trans heq.symm ▸ List.mem_map_of_mem he')
    | succ rank =>
      rw [List.getElem?_cons_succ] at he
      rw [ih (id + 1) _ hnodup.2 (by split <;> simpa using hl) he hel]
      congr 1
      omega

theorem nodup_sortedEntries_snd (h : Pass1Inv hash t done state) :
    ((sortedEntries state.shards (activeShards state.shards)).map Prod.snd).Nodup := by
  have hnames := nodup_sortedNames h
  rw [sortedNames] at hnames
  refine (List.Nodup.of_map _ hnames).map_on fun a ha b hb hab => ?_
  obtain ⟨record, hrecord, hfirst⟩ := mem_pendingEntries.mp ((sortedEntries_perm _).mem_iff.mp ha)
  obtain ⟨record', hrecord', hfirst'⟩ :=
    mem_pendingEntries.mp ((sortedEntries_perm _).mem_iff.mp hb)
  rw [hab, hrecord', Option.some.injEq] at hrecord
  obtain ⟨fa, sa⟩ := a
  obtain ⟨fb, sb⟩ := b
  simp only at hab hfirst hfirst'
  rw [hab, ← hfirst, ← hfirst', hrecord]

/-- The numbers of the pending names of a shard. -/
def assignedOf (t : SymbolTable) (shards : Fin SHARD_COUNT → Shard) (s : Fin SHARD_COUNT) :
    List ℕ :=
  assignIds s (sortedEntries shards (activeShards shards)) t.names.length
    (List.replicate (shards s).pending.length U32_MAX)

/-- **A pending name is numbered by its place among the new names.** -/
theorem assignedOf_getElem? (h : Pass1Inv hash t done state)
    (hn : n ∈ pendingNames (state.shards s)) :
    (assignedOf t state.shards s)[(pendingNames (state.shards s)).idxOf n]? =
      some ((t.names ++ sortedNames state.shards).idxOf n) := by
  have hlt := List.idxOf_lt_length_of_mem hn
  have hget : (pendingNames (state.shards s))[(pendingNames (state.shards s)).idxOf n]? =
      some n := by
    rw [List.getElem?_eq_getElem hlt, List.getElem_idxOf]
  rw [pendingNames_length] at hlt
  obtain ⟨record, hrecord⟩ : ∃ record,
      (state.shards s).pending[(pendingNames (state.shards s)).idxOf n]? = some record :=
    ⟨_, List.getElem?_eq_getElem hlt⟩
  -- The entry of the name, and its place in the sorted list.
  have hmem : ((record.first, s, (pendingNames (state.shards s)).idxOf n) : PendingEntry) ∈
      sortedEntries state.shards (activeShards state.shards) :=
    (sortedEntries_perm _).mem_iff.mpr (mem_pendingEntries.mpr ⟨record, hrecord, rfl⟩)
  obtain ⟨rank, hrank⟩ := List.mem_iff_getElem?.mp hmem
  have hname : (sortedNames state.shards)[rank]? = some n := by
    rw [sortedNames, List.getElem?_map, hrank, Option.map_some, entryName_eq hget]
  rw [assignedOf, assignIds_getElem? _ _ _ (nodup_sortedEntries_snd h) (by simpa using hlt) hrank
    rfl]
  obtain ⟨hrank', hget'⟩ := List.getElem?_eq_some_iff.mp hname
  rw [List.idxOf_append_of_notMem ((h.shard s).mem n hn).1]
  conv_rhs => rw [← hget', (nodup_sortedNames h).idxOf_getElem]

/-! ### Replacing the slots -/

/-- The value of a slot when the first `k` pending names of its shard have their numbers. -/
def resolve (assigned : List ℕ) (k value : ℕ) : ℕ :=
  if value &&& PENDING == 0 then value
  else if unpend value < k then assigned.getD (unpend value) 0 else value

theorem replaceSlot_eq_map {h : UInt64} {handle value : ℕ} (table : List Slot) :
    (∀ slot ∈ table, slot.value = handle → tableHash slot.h32 = h) →
      (table.Pairwise fun a b => ¬ (a.value = handle ∧ b.value = handle)) →
      replaceSlot h handle value table =
        table.map fun slot => if slot.value = handle then { slot with value := value } else slot := by
  induction table with
  | nil => intro _ _; rfl
  | cons slot table ih =>
    intro hhash hunique
    obtain ⟨hslot, htable⟩ := List.pairwise_cons.mp hunique
    rw [replaceSlot, List.map_cons]
    by_cases hv : slot.value = handle
    · rw [hhash slot List.mem_cons_self hv, hv, beq_self_eq_true, beq_self_eq_true, Bool.and_self,
        if_pos rfl, if_pos rfl]
      congr 1
      symm
      conv_rhs => rw [← List.map_id table]
      refine List.map_congr_left fun other hother => ?_
      rw [if_neg fun hov => hslot other hother ⟨hv, hov⟩, id_eq]
    · rw [beq_false_of_ne hv, Bool.and_false, if_neg Bool.false_ne_true, if_neg hv,
        ih (fun a ha => hhash a (List.mem_cons_of_mem _ ha)) htable]

section Finish

variable {names : List SymbolName} {s : Fin SHARD_COUNT} {before shard : Shard}

/-- A slot of a shard during a batch: of a known name, or of one that waits. -/
theorem PendingShard.slot_cases (h : PendingShard hash names s before shard) {slot : Slot}
    (hslot : slot ∈ shard.table) :
    (∃ n ∈ names, slot.value = names.idxOf n) ∨
      ∃ n ∈ pendingNames shard, slot.value = PENDING ||| (pendingNames shard).idxOf n ∧
        slot.h32 = low32 (hash n) := by
  obtain ⟨n, hn, -, h32⟩ := (h.holds.mem slot).mp hslot
  by_cases hmem : n ∈ names
  · rw [pendingValue_of_mem hmem, Option.some.injEq] at hn
    exact .inl ⟨n, hmem, hn.symm⟩
  · by_cases hp : n ∈ pendingNames shard
    · rw [pendingValue_of_pending hmem hp, Option.some.injEq] at hn
      exact .inr ⟨n, hp, hn.symm, h32⟩
    · rw [pendingValue_of_notMem hmem hp] at hn
      exact absurd hn (by simp)

/-- A handle that is still to be replaced is no number yet, and the numbers are no handles. -/
theorem PendingShard.resolve_eq_handle (h : PendingShard hash names s before shard)
    (hnames : names.length ≤ PENDING) {assigned : List ℕ}
    (hassigned : ∀ l < shard.pending.length, assigned.getD l 0 < PENDING) {k : ℕ}
    (hk : k < shard.pending.length) {slot : Slot} (hslot : slot ∈ shard.table) :
    resolve assigned k slot.value = PENDING ||| k ↔ slot.value = PENDING ||| k := by
  have hlen := h.len_le
  rcases h.slot_cases hslot with ⟨n, hn, hv⟩ | ⟨n, hn, hv, -⟩
  · have hlt := List.idxOf_lt_length_of_mem hn
    rw [resolve, hv, and_pending_of_lt (by omega), beq_self_eq_true, if_pos rfl]
  · have hlt := List.idxOf_lt_length_of_mem hn
    rw [pendingNames_length] at hlt
    rw [resolve, hv, pending_or_and_ne, if_neg Bool.false_ne_true, unpend_pending_or (by omega)]
    split
    · next hless =>
      have hnumber := hassigned _ hlt
      constructor
      · intro heq
        rw [heq, pending_or_eq (by omega)] at hnumber
        omega
      · intro heq
        have := pending_or_inj (by omega) (by omega) heq
        omega
    · rfl

/-- Replacing the slots of the pending names from `k` on, one after the other. -/
theorem PendingShard.foldl_replaceSlot (h : PendingShard hash names s before shard)
    (hnames : names.length ≤ PENDING) {assigned : List ℕ}
    (hassigned : ∀ l < shard.pending.length, assigned.getD l 0 < PENDING)
    (rest : List PendingName) : ∀ done : List PendingName, shard.pending = done ++ rest →
      (rest.zipIdx done.length).foldl (fun table record =>
          replaceSlot (tableHash (low32 (hash record.1.name))) (PENDING ||| record.2)
            (assigned.getD record.2 0) table)
          (shard.table.map fun slot =>
            { slot with value := resolve assigned done.length slot.value }) =
        shard.table.map fun slot =>
          { slot with value := resolve assigned shard.pending.length slot.value } := by
  have hlen := h.len_le
  induction rest with
  | nil =>
    intro done hdone
    rw [List.append_nil] at hdone
    rw [List.zipIdx_nil, List.foldl_nil, hdone]
  | cons record rest ih =>
    intro done hdone
    have hk : done.length < shard.pending.length := by
      rw [hdone, List.length_append, List.length_cons]
      omega
    have hrecord : (pendingNames shard)[done.length]? = some record.name := by
      rw [pendingNames, List.getElem?_map, hdone, List.getElem?_append_right le_rfl]
      simp
    rw [List.zipIdx_cons, List.foldl_cons, replaceSlot_eq_map, List.map_map]
    · have hnext := ih (done ++ [record]) (by rw [hdone]; simp)
      rw [List.length_append, List.length_singleton] at hnext
      rw [← hnext]
      congr 1
      refine List.map_congr_left fun slot hslot => ?_
      have hhandle := h.resolve_eq_handle hnames hassigned hk hslot
      simp only [Function.comp_apply, hhandle]
      split
      · next hv =>
        rw [resolve, hv, pending_or_and_ne, if_neg Bool.false_ne_true,
          unpend_pending_or (by omega), if_pos (Nat.lt_succ_self _)]
      · next hv =>
        rcases h.slot_cases hslot with ⟨n, hn, hvalue⟩ | ⟨n, hn, hvalue, -⟩
        · have hlt := List.idxOf_lt_length_of_mem hn
          rw [resolve, resolve, hvalue, and_pending_of_lt (by omega), beq_self_eq_true,
            if_pos rfl, if_pos rfl]
        · have hlt := List.idxOf_lt_length_of_mem hn
          rw [pendingNames_length] at hlt
          have hne : (pendingNames shard).idxOf n ≠ done.length :=
            fun hne => hv (by rw [hvalue, hne])
          rw [resolve, resolve, hvalue, pending_or_and_ne, if_neg Bool.false_ne_true,
            if_neg Bool.false_ne_true, unpend_pending_or (by omega)]
          congr 2
          rw [eq_iff_iff]
          omega
    · -- The slot of a handle has the hash of its name.
      intro replaced hreplaced hv
      obtain ⟨slot, hslot, rfl⟩ := List.mem_map.mp hreplaced
      have hv' := (h.resolve_eq_handle hnames hassigned hk hslot).mp hv
      rcases h.slot_cases hslot with ⟨n, hn, hvalue⟩ | ⟨n, hn, hvalue, h32⟩
      · have hlt := List.idxOf_lt_length_of_mem hn
        rw [hvalue, pending_or_eq (by omega)] at hv'
        omega
      · have hlt := List.idxOf_lt_length_of_mem hn
        rw [pendingNames_length] at hlt
        rw [hvalue] at hv'
        have hidx := pending_or_inj (by omega) (by omega) hv'
        rw [← hidx, List.getElem?_eq_getElem (List.idxOf_lt_length_of_mem hn),
          List.getElem_idxOf, Option.some.injEq] at hrecord
        simp only [h32, hrecord]
    · -- No two slots have one handle.
      rw [List.pairwise_map]
      refine h.holds.nodup.imp_of_mem fun {a b} ha hb hab hboth => hab ?_
      have hva := (h.resolve_eq_handle hnames hassigned hk ha).mp hboth.1
      have hvb := (h.resolve_eq_handle hnames hassigned hk hb).mp hboth.2
      obtain ⟨m, hm, -, hm32⟩ := (h.holds.mem a).mp ha
      obtain ⟨n, hn, -, hn32⟩ := (h.holds.mem b).mp hb
      rw [hva] at hm
      rw [hvb] at hn
      have hmn := pendingValue_inj hnames (by rw [pendingNames_length]; exact hlen) hm hn
      obtain ⟨a32, av⟩ := a
      obtain ⟨b32, bv⟩ := b
      simp only at hva hvb hm32 hn32
      rw [hva, hvb, hm32, hn32, hmn]

/-- **The slots a shard is left with.** -/
theorem PendingShard.finishShard_table (h : PendingShard hash names s before shard)
    (hnames : names.length ≤ PENDING) {assigned : List ℕ}
    (hassigned : ∀ l < shard.pending.length, assigned.getD l 0 < PENDING) :
    (finishShard hash { shard with assigned := assigned }).table =
      shard.table.map fun slot =>
        { slot with value := resolve assigned shard.pending.length slot.value } := by
  have hstart : (shard.table.map fun slot =>
      { slot with value := resolve assigned 0 slot.value }) = shard.table := by
    conv_rhs => rw [← List.map_id shard.table]
    refine List.map_congr_left fun slot _ => ?_
    have hzero : resolve assigned 0 slot.value = slot.value := by
      rw [resolve]
      split
      · rfl
      · rw [if_neg (Nat.not_lt_zero _)]
    rw [hzero, id_eq]
  have hfold := h.foldl_replaceSlot hnames hassigned shard.pending [] rfl
  rw [List.length_nil, hstart] at hfold
  exact hfold

end Finish

/-! ### The requests of a batch -/

variable {jobs : List InternJob}

theorem mem_requests {r : Request} :
    r ∈ requests jobs ↔ ∃ job, jobs[r.job]? = some job ∧ job.names[r.index]? = some r.name ∧
      r.occurrence = toLex (job.position, min r.index U32_MAX) := by
  rw [requests, List.mem_flatMap]
  constructor
  · rintro ⟨⟨job, j⟩, hjob, hmem⟩
    obtain ⟨⟨name, i⟩, hname, rfl⟩ := List.mem_map.mp hmem
    exact ⟨job, List.mk_mem_zipIdx_iff_getElem?.mp hjob,
      List.mk_mem_zipIdx_iff_getElem?.mp hname, rfl⟩
  · rintro ⟨job, hjob, hname, hocc⟩
    refine ⟨(job, r.job), List.mk_mem_zipIdx_iff_getElem?.mpr hjob,
      List.mem_map.mpr ⟨(r.name, r.index), List.mk_mem_zipIdx_iff_getElem?.mpr hname, ?_⟩⟩
    obtain ⟨j, i, n, o⟩ := r
    simp only at hocc
    rw [hocc]

theorem nodup_requests (jobs : List InternJob) :
    ((requests jobs).map fun r => (r.job, r.index)).Nodup := by
  have hidx : ∀ {α : Type} (l : List α), l.zipIdx.Pairwise fun a b => a.2 ≠ b.2 := by
    intro α l
    have := List.nodup_range' (s := 0) (n := l.length)
    rw [← List.zipIdx_map_snd 0 l] at this
    exact List.pairwise_map.mp this
  rw [requests, List.map_flatMap, List.nodup_flatMap]
  constructor
  · intro job _
    rw [List.map_map]
    refine List.pairwise_map.mpr ((hidx job.1.names).imp fun {a b} hab heq => hab ?_)
    exact (Prod.mk.injEq _ _ _ _ ▸ heq : _ ∧ _).2
  · refine (hidx jobs).imp fun {a b} hab => ?_
    intro place ha hb
    simp only [List.map_map, List.mem_map] at ha hb
    obtain ⟨x, -, rfl⟩ := ha
    obtain ⟨y, -, heq⟩ := hb
    exact hab (congrArg Prod.fst heq).symm

/-! ### The outcome -/

section Outcome

variable (h : Pass1Inv hash t done state)

include h

/-- **A value resolves to the index of its name.** -/
theorem resolve_eq (hlen : t.names.length ≤ PENDING) {s : Fin SHARD_COUNT} {n : SymbolName}
    {v : ℕ} (hv : pendingValue t.names (pendingNames (state.shards s)) n = some v) :
    resolve (assignedOf t state.shards s) (state.shards s).pending.length v =
      (t.names ++ sortedNames state.shards).idxOf n ∧
    n ∈ t.names ++ sortedNames state.shards := by
  by_cases hn : n ∈ t.names
  · rw [pendingValue_of_mem hn, Option.some.injEq] at hv
    have hlt := List.idxOf_lt_length_of_mem hn
    rw [resolve, ← hv, and_pending_of_lt (by omega), beq_self_eq_true, if_pos rfl,
      List.idxOf_append_of_mem hn]
    exact ⟨rfl, List.mem_append_left _ hn⟩
  · by_cases hp : n ∈ pendingNames (state.shards s)
    · rw [pendingValue_of_pending hn hp, Option.some.injEq] at hv
      have hlt := List.idxOf_lt_length_of_mem hp
      rw [pendingNames_length] at hlt
      have hle := (h.shard s).len_le
      rw [resolve, ← hv, pending_or_and_ne, if_neg Bool.false_ne_true,
        unpend_pending_or (by omega), if_pos hlt, List.getD_eq_getElem?_getD,
        assignedOf_getElem? h hp, Option.getD_some]
      exact ⟨rfl, List.mem_append_right _ (mem_sortedNames.mpr ⟨s, hp⟩)⟩
    · rw [pendingValue_of_notMem hn hp] at hv
      exact absurd hv (by simp)

theorem assignedOf_lt (hlen : t.names.length + (sortedNames state.shards).length ≤ PENDING)
    (s : Fin SHARD_COUNT) :
    ∀ l < (state.shards s).pending.length, (assignedOf t state.shards s).getD l 0 < PENDING := by
  intro l hl
  have hl' : l < (pendingNames (state.shards s)).length := by rwa [pendingNames_length]
  have hn : (pendingNames (state.shards s))[l] ∈ pendingNames (state.shards s) :=
    List.getElem_mem hl'
  have hget := assignedOf_getElem? h hn
  rw [(h.shard s).nodup.idxOf_getElem] at hget
  rw [List.getD_eq_getElem?_getD, hget, Option.getD_some]
  have hmem : (pendingNames (state.shards s))[l] ∈ t.names ++ sortedNames state.shards :=
    List.mem_append_right _ (mem_sortedNames.mpr ⟨s, hn⟩)
  have := List.idxOf_lt_length_of_mem hmem
  rw [List.length_append] at this
  omega

theorem holds_resolved (hlen : t.names.length + (sortedNames state.shards).length ≤ PENDING)
    (s : Fin SHARD_COUNT) :
    Holds hash s (idOf (t.names ++ sortedNames state.shards))
      ((state.shards s).table.map fun slot => ⟨slot.h32,
        resolve (assignedOf t state.shards s) (state.shards s).pending.length slot.value⟩) := by
  have hnames : t.names.length ≤ PENDING := by omega
  refine ((h.shard s).holds.map _ ?_).congr ?_
  · intro m n v w hm hn hvw
    obtain ⟨hrm, hmem⟩ := resolve_eq h hnames hm
    rw [hrm, (resolve_eq h hnames hn).1] at hvw
    rw [(List.idxOf_inj hmem).mp hvw, hn, Option.some.injEq] at hm
    exact hm.symm
  · intro n hs
    cases hv : pendingValue t.names (pendingNames (state.shards s)) n with
    | some v =>
      obtain ⟨hrn, hmem⟩ := resolve_eq h hnames hv
      rw [Option.map_some, hrn, idOf_of_mem hmem]
    | none =>
      rw [Option.map_none, idOf_of_notMem]
      intro hmem
      rcases List.mem_append.mp hmem with hn | hn
      · rw [pendingValue_of_mem hn] at hv
        exact absurd hv (by simp)
      · obtain ⟨s', hs'⟩ := mem_sortedNames.mp hn
        obtain ⟨hnew, hshard⟩ := (h.shard s').mem n hs'
        rw [← hshard, hs] at hs'
        rw [pendingValue_of_pending hnew hs'] at hv
        exact absurd hv (by simp)

theorem shard_eq_of_not_active (hrep : Rep hash t) {s : Fin SHARD_COUNT}
    (hs : (state.shards s).pending = []) : state.shards s = t.shards s := by
  have hp := h.shard s
  have htable : (state.shards s).table = (t.shards s).table := by
    rw [← hp.retain]
    symm
    refine List.filter_eq_self.mpr fun slot hslot => ?_
    rcases hp.slot_cases hslot with ⟨n, hn, hv⟩ | ⟨n, hn, -⟩
    · have hlt := List.idxOf_lt_length_of_mem hn
      have hle := hrep.len_le
      rw [MAX_SYMBOLS] at hle
      rw [hv, and_pending_of_lt (by omega), beq_self_eq_true]
    · rw [pendingNames, hs] at hn
      exact absurd hn List.not_mem_nil
  have h1 := hp.assigned
  have h2 := hrep.assigned s
  have h3 := hrep.pending s
  generalize state.shards s = a at *
  generalize t.shards s = b at *
  obtain ⟨ta, pa, aa⟩ := a
  obtain ⟨tb, pb, ab⟩ := b
  simp only at htable h1 h2 h3 hs
  rw [htable, h1, h2, h3, hs]

/-- **Discarding the pending names restores the shards.** -/
theorem discardPending_eq (hrep : Rep hash t) :
    discardPending state.shards (activeShards state.shards) = t.shards := by
  funext s
  unfold discardPending
  split
  · have hp := h.shard s
    have h1 := hp.retain
    have h2 := hrep.pending s
    have h3 := hrep.assigned s
    have h4 := hp.assigned
    generalize t.shards s = b at *
    obtain ⟨tb, pb, ab⟩ := b
    simp only at h1 h2 h3
    simp only [Shard.retain, h1, h2, h3, h4]
  · next hs =>
    rw [mem_activeShards, not_not] at hs
    exact shard_eq_of_not_active h hrep hs

/-- The slots, pending lists and numbers of a shard after pass 2. -/
theorem assignPending_shards (hlen : t.names.length + (sortedNames state.shards).length ≤ PENDING)
    (newCount : ℕ) (s : Fin SHARD_COUNT) :
    Holds hash s (idOf (t.names ++ sortedNames state.shards))
        ((t.assignPending hash state.shards (activeShards state.shards) t.names.length
          newCount).shards s).table ∧
      ((t.assignPending hash state.shards (activeShards state.shards) t.names.length
        newCount).shards s).pending = [] ∧
      ((t.assignPending hash state.shards (activeShards state.shards) t.names.length
        newCount).shards s).assigned =
          if s ∈ activeShards state.shards then assignedOf t state.shards s else [] := by
  have hholds := holds_resolved h hlen s
  simp only [assignPending, growState]
  split
  · next hs =>
    refine ⟨?_, by simp only [finishShard], by simp only [finishShard, assignedOf]⟩
    have htable := (h.shard s).finishShard_table (by omega) (assignedOf_lt h hlen s)
    rw [assignedOf] at htable
    rw [htable]
    exact hholds
  · next hs =>
    rw [mem_activeShards, not_not] at hs
    refine ⟨?_, hs, (h.shard s).assigned⟩
    have hself : ((state.shards s).table.map fun slot => (⟨slot.h32,
        resolve (assignedOf t state.shards s) (state.shards s).pending.length slot.value⟩ :
          Slot)) = (state.shards s).table := by
      conv_rhs => rw [← List.map_id (state.shards s).table]
      refine List.map_congr_left fun slot _ => ?_
      rw [hs, resolve, List.length_nil]
      split
      · rfl
      · rw [if_neg (Nat.not_lt_zero _)]
        rfl
    rw [hself] at hholds
    exact hholds

/-- **Pass 3.**  What was written for a name becomes its index. -/
theorem rewriteId_eq (hlen : t.names.length + (sortedNames state.shards).length ≤ PENDING)
    (newCount : ℕ) {n : SymbolName} {v : ℕ}
    (hv : pendingValue t.names (pendingNames (state.shards (shardOf (hash n)))) n = some v) :
    rewriteId hash (t.assignPending hash state.shards (activeShards state.shards) t.names.length
        newCount).shards v n = (t.names ++ sortedNames state.shards).idxOf n := by
  rw [← (resolve_eq h (by omega) hv).1, rewriteId, resolve]
  split
  · rfl
  · next hbit =>
    have hp : n ∈ pendingNames (state.shards (shardOf (hash n))) ∧ n ∉ t.names := by
      by_cases hn : n ∈ t.names
      · have hlt := List.idxOf_lt_length_of_mem hn
        rw [pendingValue_of_mem hn, Option.some.injEq] at hv
        rw [← hv, and_pending_of_lt (by omega)] at hbit
        exact absurd (beq_self_eq_true 0) hbit
      · refine ⟨?_, hn⟩
        by_contra hp
        rw [pendingValue_of_notMem hn hp] at hv
        exact absurd hv (by simp)
    have hactive : shardOf (hash n) ∈ activeShards state.shards := by
      rw [mem_activeShards]
      intro hnil
      have := hp.1
      rw [pendingNames, hnil] at this
      exact absurd this List.not_mem_nil
    have hlt := List.idxOf_lt_length_of_mem hp.1
    rw [pendingNames_length] at hlt
    have hle := (h.shard (shardOf (hash n))).len_le
    rw [pendingValue_of_pending hp.2 hp.1, Option.some.injEq] at hv
    rw [(assignPending_shards h hlen newCount _).2.2, if_pos hactive, ← hv,
      unpend_pending_or (by omega), if_pos hlt]

omit h in
theorem clearAssigned_shards (u : SymbolTable) (active : List (Fin SHARD_COUNT))
    (s : Fin SHARD_COUNT) :
    ((u.clearAssigned active).shards s).table = (u.shards s).table ∧
      ((u.clearAssigned active).shards s).pending = (u.shards s).pending ∧
      ((u.clearAssigned active).shards s).assigned =
        if s ∈ active then [] else (u.shards s).assigned := by
  simp only [clearAssigned]
  split
  · exact ⟨rfl, rfl, rfl⟩
  · exact ⟨rfl, rfl, rfl⟩

omit h in
theorem clearAssigned_names (newCount : ℕ) :
    ((t.assignPending hash state.shards (activeShards state.shards) t.names.length
      newCount).clearAssigned (activeShards state.shards)).names =
        t.names ++ sortedNames state.shards := by
  simp only [clearAssigned, assignPending, growState, sortedNames]

theorem interned_clearAssigned (hrep : Rep hash t)
    (hfit : (sortedNames state.shards).length ≤ t.limit - t.names.length) :
    Interned hash t (sortedNames state.shards)
      ((t.assignPending hash state.shards (activeShards state.shards) t.names.length
        (sortedNames state.shards).length).clearAssigned (activeShards state.shards)) := by
  have hmax : t.names.length ≤ PENDING := hrep.len_le
  have hlimit : t.limit ≤ PENDING := t.limit_le
  have hlen : t.names.length + (sortedNames state.shards).length ≤ PENDING := by omega
  have hshard := assignPending_shards h hlen (sortedNames state.shards).length
  have hnames := @clearAssigned_names hash t state (sortedNames state.shards).length
  refine ⟨⟨⟨?_, fun s => ?_, fun s => ?_, fun s => ?_⟩, ?_, ?_, ?_⟩, hnames, ?_, ?_, ?_⟩
  · rw [hnames]
    refine hrep.nodup.append (nodup_sortedNames h) fun n hn hsorted => ?_
    obtain ⟨s, hs⟩ := mem_sortedNames.mp hsorted
    exact ((h.shard s).mem n hs).1 hn
  · rw [hnames, (clearAssigned_shards _ _ s).1]
    exact (hshard s).1
  · rw [(clearAssigned_shards _ _ s).2.1]
    exact (hshard s).2.1
  · rw [(clearAssigned_shards _ _ s).2.2, (hshard s).2.2]
    split
    · rfl
    · rfl
  · rw [hnames, List.length_append]
    exact hlen
  · rw [hnames]
    simp only [clearAssigned, assignPending, growState, List.length_append,
      List.length_replicate, hrep.flags]
  · rw [hnames]
    simp only [clearAssigned, assignPending, growState, List.length_append,
      List.length_replicate, hrep.defs]
  · simp only [clearAssigned, assignPending, growState]
  · simp only [clearAssigned, assignPending, growState]
  · simp only [clearAssigned, assignPending, growState]

end Outcome

theorem pass1Ids_eq {written : List ((ℕ × ℕ) × ℕ)} {value : SymbolName → ℕ}
    (hwritten : ∀ j job i n id, jobs[j]? = some job → job.names[i]? = some n →
      job.ids[i]? = some id → (written.lookup (j, i)).getD id = value n) :
    pass1Ids jobs written = jobs.map fun job => job.names.map value := by
  apply List.ext_getElem?
  intro j
  rw [pass1Ids, List.getElem?_map, List.getElem?_map, List.getElem?_zipIdx]
  cases hjob : jobs[j]? with
  | none => rfl
  | some job =>
    simp only [Option.map_some, Option.some.injEq, Nat.zero_add]
    apply List.ext_getElem?
    intro i
    rw [List.getElem?_map, List.getElem?_map, List.getElem?_zipIdx]
    cases hname : job.names[i]? with
    | none =>
      rw [List.getElem?_eq_none_iff, ← job.ids_length, ← List.getElem?_eq_none_iff] at hname
      rw [hname]
      rfl
    | some name =>
      have hi : i < job.ids.length := by
        rw [job.ids_length]
        exact (List.getElem?_eq_some_iff.mp hname).1
      have hid := List.getElem?_eq_getElem hi
      rw [hid]
      simp only [Option.map_some, Nat.zero_add, hwritten j job i name _ hjob hname hid]

theorem exists_request {job : InternJob} (hjob : job ∈ jobs) (hn : n ∈ job.names) :
    ∃ r ∈ requests jobs, r.name = n := by
  obtain ⟨j, hj⟩ := List.mem_iff_getElem?.mp hjob
  obtain ⟨i, hi⟩ := List.mem_iff_getElem?.mp hn
  exact ⟨⟨j, i, n, toLex (job.position, min i U32_MAX)⟩,
    mem_requests.mpr ⟨job, hj, hi, rfl⟩, rfl⟩

theorem jobIds_eq {names : List SymbolName} {value : SymbolName → ℕ}
    (h : ∀ r ∈ requests jobs, value r.name = names.idxOf r.name) :
    (jobs.map fun job => job.names.map value) = jobIds names jobs := by
  refine List.map_congr_left fun job hjob => List.map_congr_left fun n hn => ?_
  obtain ⟨r, hr, rfl⟩ := exists_request hjob hn
  exact h r hr

theorem fits_congr {xs ys : List SymbolName} (h : ∀ x, x ∈ xs ↔ x ∈ ys) :
    (fresh t.names xs).Perm (fresh t.names ys) ∧ (Fits t xs ↔ Fits t ys) := by
  have hperm : (fresh t.names xs).Perm (fresh t.names ys) := by
    rw [List.perm_ext_iff_of_nodup (nodup_fresh _ _) (nodup_fresh _ _)]
    intro x
    rw [mem_fresh, mem_fresh, h]
  exact ⟨hperm, by unfold Fits; rw [hperm.length_eq]⟩

theorem FirstOf.perm {done' : List Request} (hperm : done.Perm done') {first : Occurrence}
    (h : FirstOf done n first) : FirstOf done' n first := by
  obtain ⟨⟨r, hr, hrn, hro⟩, hmin⟩ := h
  exact ⟨⟨r, hperm.mem_iff.mp hr, hrn, hro⟩, fun q hq => hmin q (hperm.mem_iff.mpr hq)⟩

/-- **Interning in three passes.**  For every order of the lookups, a batch that fits
appends its new names by first occurrence and, where these are shared, by contents; one that does
not fit changes nothing. -/
theorem internPending_spec (hrep : Rep hash t) (jobs : List InternJob) {order : List Request}
    (horder : order.Perm (requests jobs)) :
    (Fits t ((requests jobs).map Request.name) →
      ∃ t' news, t.internPending hash jobs order = (t', .ok (jobIds t'.names jobs)) ∧
        Interned hash t news t' ∧
        news.Perm (fresh t.names ((requests jobs).map Request.name)) ∧
        news.Pairwise (BeforeBy (requests jobs))) ∧
    (¬ Fits t ((requests jobs).map Request.name) →
      t.internPending hash jobs order = (t, .error (overflow t.limit))) := by
  have h := lookUpAll_inv hrep order ((horder.map _).nodup_iff.mpr (nodup_requests jobs))
  have hcongr := @fits_congr t (order.map Request.name) ((requests jobs).map Request.name)
    fun x => (horder.map Request.name).mem_iff
  rw [← hcongr.2]
  have hmax : t.names.length ≤ PENDING := hrep.len_le
  unfold internPending
  generalize t.lookUpAll hash order = state at h ⊢
  simp only [newCount_eq]
  constructor
  · intro hfits
    have hok : state.overflowed = false := by
      by_contra hover
      exact not_fits_of_overflowed h (by simpa using hover) hfits
    have hgathered := gathered_perm h hok
    have hperm : (sortedNames state.shards).Perm
        (fresh t.names ((requests jobs).map Request.name)) :=
      (sortedNames_perm _).trans (hgathered.trans hcongr.1)
    have hsorted : (sortedNames state.shards).Pairwise (BeforeBy (requests jobs)) :=
      (sortedNames_sorted h hok).imp fun hab first first' hf hf' =>
        hab first first' (hf.perm horder.symm) (hf'.perm horder.symm)
    have hcount : (gathered state.shards).length ≤ t.limit - t.names.length := by
      rw [hgathered.length_eq]
      exact hfits
    have hwritten : ∀ r ∈ requests jobs, ∃ v,
        state.written.lookup (r.job, r.index) = some v ∧
          pendingValue t.names (pendingNames (state.shards (shardOf (hash r.name)))) r.name =
            some v := fun r hr => h.written hok r (horder.mem_iff.mpr hr)
    have hids : pass1Ids jobs state.written = jobs.map fun job => job.names.map fun n =>
        (pendingValue t.names (pendingNames (state.shards (shardOf (hash n)))) n).getD 0 := by
      refine pass1Ids_eq fun j job i n id hjob hname _ => ?_
      obtain ⟨v, hlookup, hv⟩ := hwritten ⟨j, i, n, toLex (job.position, min i U32_MAX)⟩
        (mem_requests.mpr ⟨job, hjob, hname, rfl⟩)
      simp only at hlookup hv
      rw [hlookup, hv, Option.getD_some, Option.getD_some]
    by_cases hactive : activeShards state.shards = []
    · -- Every name is known: nothing changed.
      have hnil : ∀ s, (state.shards s).pending = [] := fun s => by
        by_contra hs
        have := mem_activeShards.mpr hs
        rw [hactive] at this
        exact absurd this List.not_mem_nil
      have hshards : state.shards = t.shards :=
        funext fun s => shard_eq_of_not_active h hrep (hnil s)
      have hnames : sortedNames state.shards = [] := by
        refine List.eq_nil_iff_forall_not_mem.mpr fun n hn => ?_
        obtain ⟨s, hs⟩ := mem_sortedNames.mp hn
        rw [pendingNames, hnil s] at hs
        exact absurd hs List.not_mem_nil
      refine ⟨t, [], ?_, ?_, ?_, List.Pairwise.nil⟩
      · rw [hactive, List.isEmpty_nil, if_pos rfl, hids, jobIds_eq, hshards]
        intro r hr
        obtain ⟨v, -, hv⟩ := hwritten r hr
        have hnone : pendingNames (state.shards (shardOf (hash r.name))) = [] := by
          rw [pendingNames, hnil]
          rfl
        rw [hnone, pendingValue_nil] at hv ⊢
        have hmem : r.name ∈ t.names := by
          by_contra hnot
          rw [idOf_of_notMem hnot] at hv
          exact absurd hv (by simp)
        rw [idOf_of_mem hmem, Option.getD_some]
      · have := (Extends.refl hrep.toIndex).growState hrep (Nat.zero_le _)
        rwa [List.length_nil, growState_zero] at this
      · rw [hnames] at hperm
        exact hperm
    · have hlen : t.names.length + (sortedNames state.shards).length ≤ PENDING := by
        have hlimit : t.limit ≤ PENDING := t.limit_le
        rw [(sortedNames_perm _).length_eq]
        omega
      have hempty : (activeShards state.shards).isEmpty = false := by
        rw [List.isEmpty_eq_false_iff]
        exact hactive
      rw [hempty, if_neg Bool.false_ne_true, hok, Bool.false_or,
        if_neg (by simpa using hcount)]
      rw [← (sortedNames_perm state.shards).length_eq] at hcount ⊢
      refine ⟨_, sortedNames state.shards, ?_, interned_clearAssigned h hrep hcount, hperm,
        hsorted⟩
      rw [hids, List.zipWith_map_right, List.zipWith_self]
      simp only [List.zipWith_map_right, List.zipWith_self]
      rw [jobIds_eq]
      intro r hr
      obtain ⟨v, -, hv⟩ := hwritten r hr
      rw [hv, Option.getD_some, clearAssigned_names]
      exact rewriteId_eq h hlen _ hv
  · intro hnot
    have hcond : (state.overflowed || decide (t.limit - t.names.length <
        (gathered state.shards).length)) = true := by
      by_cases hover : state.overflowed = true
      · rw [hover, Bool.true_or]
      · rw [(gathered_perm h (by simpa using hover)).length_eq]
        simpa [Fits, hover] using hnot
    have hactive : (activeShards state.shards).isEmpty = false := by
      rw [List.isEmpty_eq_false_iff]
      intro hactive
      have hover : state.overflowed = true := by
        rw [gathered, hactive, List.flatMap_nil, List.length_nil] at hcond
        simpa using hcond
      -- A full pending list is not empty.
      obtain ⟨r, -, -, -, hfull⟩ := h.full hover
      have hmem : shardOf (hash r.name) ∈ activeShards state.shards := by
        rw [mem_activeShards]
        intro hnil
        rw [hnil] at hfull
        exact absurd hfull (by decide)
      rw [hactive] at hmem
      exact absurd hmem List.not_mem_nil
    rw [hactive, if_neg Bool.false_ne_true, if_pos hcond, discardPending_eq h hrep]

end Qld.Symbols.SymbolTable
