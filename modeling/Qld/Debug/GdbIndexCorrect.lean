import Mathlib.Algebra.Order.BigOperators.Group.List
import Mathlib.Algebra.Order.Group.Nat
import Mathlib.Data.Nat.Prime.Basic
import Qld.Debug.GdbIndex
import Qld.Lib.Except

/-!
# The table of a `.gdb_index` answers every lookup

* `Gathered` — what a shard has gathered; `gathered_foldl`, `complete_shards` — every name
  once, with its values in input order;
* `createSymbols_spec` — the symbols, and where they stand in the pool;
* `insertSymbols_spec` — the loop over the slots of the table ends, and fills it;
* `render_spec` — the section has the planned size, and holds the table and the pool;
* `lookup_spec` — GDB finds the names that occur, and no others;
* `lookupsOk_iff` — with the units and kinds of their objects, as long as the units can be
  numbered in 24 bits.
-/

namespace Qld.Debug.Gdb

open Qld.Lib
open Qld.Lib (wrappingAdd saturatingAdd U64_MAX)

/-! ### Hashes -/

theorem gdbHash_lt (name : List UInt8) : gdbHash name < 2 ^ 32 := by
  rw [gdbHash]
  cases name using List.reverseRecOn with
  | nil => decide
  | append_singleton name c =>
    rw [List.foldl_append, List.foldl_cons, List.foldl_nil]
    exact Nat.mod_lt _ (by decide)

/-! ### Gathering -/

/-- The names of all objects in input order, with the number of units before their object. -/
def occurrences (chunks : List Chunk) (names : List (List NameEntry)) : List (NameEntry × ℕ) :=
  (names.zip (firstUnits chunks 0)).flatMap fun object =>
    object.1.map fun entry => (entry, object.2)

/-- The values of a name, shifted by the units before its object. -/
def valuesOf (items : List (NameEntry × ℕ)) (name : List UInt8) : List ℕ :=
  (items.filter fun x => x.1.name == name).map fun x => (x.1.value + x.2) % 2 ^ 32

/-- Every hash is that of its name. -/
def Hashed (items : List (NameEntry × ℕ)) : Prop := ∀ x ∈ items, x.1.hash = gdbHash x.1.name

/-- What a shard has gathered of some names. -/
structure Gathered (shard : ℕ) (items : List (NameEntry × ℕ)) (state : Shard) : Prop where
  nodup : (state.symbols.map (·.name)).Nodup
  mem_iff : ∀ n, n ∈ state.symbols.map (·.name) ↔
    gdbHash n >>> 27 = shard ∧ ∃ x ∈ items, x.1.name = n
  symbol : ∀ s ∈ state.symbols, s.hash = gdbHash s.name ∧ s.cuVector = valuesOf items s.name
  index : ∀ n at_, state.index.lookup n = some at_ ↔
    ∃ s, state.symbols[at_]? = some s ∧ s.name = n

section Gather

variable {shard first : ℕ} {items : List (NameEntry × ℕ)} {state : Shard} {entry : NameEntry}

theorem valuesOf_append (items more : List (NameEntry × ℕ)) (name : List UInt8) :
    valuesOf (items ++ more) name = valuesOf items name ++ valuesOf more name := by
  rw [valuesOf, List.filter_append, List.map_append]
  rfl

theorem valuesOf_singleton_self : valuesOf [(entry, first)] entry.name =
    [(entry.value + first) % 2 ^ 32] := by
  rw [valuesOf, List.filter_singleton, beq_self_eq_true]
  rfl

variable {name : List UInt8}

theorem valuesOf_singleton_of_ne (h : entry.name ≠ name) :
    valuesOf [(entry, first)] name = [] := by
  rw [valuesOf, List.filter_singleton, beq_eq_false_iff_ne.mpr h]
  rfl

theorem valuesOf_of_notMem (h : ¬∃ x ∈ items, x.1.name = name) :
    valuesOf items name = [] := by
  rw [valuesOf, List.filter_eq_nil_iff.mpr, List.map_nil]
  exact fun x hx heq => h ⟨x, hx, beq_iff_eq.mp heq⟩

theorem exists_mem_concat :
    (∃ x ∈ items ++ [(entry, first)], x.1.name = name) ↔
      (∃ x ∈ items, x.1.name = name) ∨ entry.name = name := by
  simp only [List.mem_append, List.mem_singleton, or_and_right, exists_or, exists_eq_left]

theorem gathered_nil : Gathered shard [] ⟨[], []⟩ where
  nodup := List.nodup_nil
  mem_iff n := by simp
  symbol s hs := absurd hs List.not_mem_nil
  index n at_ := by simp

theorem Gathered.skip (h : Gathered shard items state) (hhash : gdbHash entry.name >>> 27 ≠ shard) :
    Gathered shard (items ++ [(entry, first)]) state where
  nodup := h.nodup
  mem_iff n := by
    rw [h.mem_iff, exists_mem_concat]
    refine and_congr_right fun hn => (or_iff_left ?_).symm
    rintro rfl
    exact hhash hn
  symbol s hs := by
    obtain ⟨hn, -⟩ := (h.mem_iff _).mp (List.mem_map_of_mem hs)
    have hne : entry.name ≠ s.name := fun heq => hhash (by rw [heq, hn])
    rw [valuesOf_append, valuesOf_singleton_of_ne hne, List.append_nil]
    exact h.symbol s hs
  index := h.index

theorem Gathered.push (h : Gathered shard items state) (hhash : entry.hash = gdbHash entry.name)
    (hshard : gdbHash entry.name >>> 27 = shard) (hnew : state.index.lookup entry.name = none) :
    Gathered shard (items ++ [(entry, first)])
      { symbols :=
          state.symbols ++ [⟨entry.name, entry.hash, [(entry.value + first) % 2 ^ 32], 0, 0⟩]
        index := (entry.name, state.symbols.length) :: state.index } := by
  have hnot : entry.name ∉ state.symbols.map (·.name) := by
    intro hmem
    obtain ⟨s, hs, hname⟩ := List.mem_map.mp hmem
    obtain ⟨at_, hat, rfl⟩ := List.getElem_of_mem hs
    rw [(h.index _ at_).mpr ⟨_, List.getElem?_eq_getElem hat, hname⟩] at hnew
    cases hnew
  have hunseen : ¬∃ x ∈ items, x.1.name = entry.name := fun hx =>
    hnot ((h.mem_iff _).mpr ⟨hshard, hx⟩)
  constructor
  · rw [List.map_append]
    refine List.nodup_append.mpr ⟨h.nodup, List.nodup_singleton _, fun a ha b hb heq => ?_⟩
    rw [heq, List.mem_singleton.mp hb] at ha
    exact hnot ha
  · intro n
    rw [List.map_append, List.mem_append, h.mem_iff, exists_mem_concat, and_or_left]
    refine or_congr_right ?_
    rw [List.map_cons, List.map_nil, List.mem_singleton]
    constructor
    · rintro rfl
      exact ⟨hshard, rfl⟩
    · exact fun heq => heq.2.symm
  · intro s hs
    rw [valuesOf_append]
    rcases List.mem_append.mp hs with hs | hs
    · have hne : entry.name ≠ s.name := by
        intro heq
        rw [heq] at hnot
        exact hnot (List.mem_map_of_mem hs)
      rw [valuesOf_singleton_of_ne hne, List.append_nil]
      exact h.symbol s hs
    · rw [List.mem_singleton.mp hs, valuesOf_of_notMem hunseen, valuesOf_singleton_self]
      exact ⟨hhash, rfl⟩
  · intro n at_
    rw [List.lookup_cons]
    constructor
    · intro hlookup
      split at hlookup
      · rename_i heq
        obtain rfl := Option.some.inj hlookup
        rw [List.getElem?_append_right le_rfl, Nat.sub_self]
        exact ⟨_, rfl, (beq_iff_eq.mp heq).symm⟩
      · obtain ⟨s, hs, hname⟩ := (h.index n at_).mp hlookup
        exact ⟨s, List.getElem?_append_left (List.getElem?_eq_some_iff.mp hs).1 ▸ hs, hname⟩
    · rintro ⟨s, hs, rfl⟩
      rcases Nat.lt_or_ge at_ state.symbols.length with hlt | hge
      · rw [List.getElem?_append_left hlt] at hs
        have hne : s.name ≠ entry.name := by
          intro heq
          rw [← heq] at hnot
          exact hnot (List.mem_map_of_mem (List.mem_of_getElem? hs))
        rw [beq_eq_false_iff_ne.mpr hne]
        exact (h.index _ _).mpr ⟨s, hs, rfl⟩
      · rw [List.getElem?_append_right hge] at hs
        obtain ⟨hzero, rfl⟩ := List.getElem?_eq_some_iff.mp hs
        rw [List.length_singleton] at hzero
        simp only [List.getElem_singleton, beq_self_eq_true]
        congr 1
        omega

/-- A symbol with one more value. -/
def addValue (value : ℕ) (symbol : Symbol) : Symbol :=
  { symbol with cuVector := symbol.cuVector ++ [value] }

theorem getElem?_modify_addValue (symbols : List Symbol) (at_ value i : ℕ) :
    (symbols.modify at_ (addValue value))[i]? =
      symbols[i]?.map fun s => if at_ = i then addValue value s else s :=
  List.getElem?_modify _ _ _ _

theorem map_name_modify (symbols : List Symbol) (at_ value : ℕ) :
    (symbols.modify at_ (addValue value)).map (·.name) = symbols.map (·.name) := by
  refine List.ext_getElem? fun i => ?_
  rw [List.getElem?_map, List.getElem?_map, getElem?_modify_addValue, Option.map_map]
  congr 1
  funext s
  show (if at_ = i then addValue value s else s).name = s.name
  split <;> rfl

theorem Gathered.extend (h : Gathered shard items state) {at_ : ℕ}
    (hseen : state.index.lookup entry.name = some at_) :
    Gathered shard (items ++ [(entry, first)])
      { state with symbols := state.symbols.modify at_ (addValue ((entry.value + first) % 2 ^ 32)) }
    := by
  obtain ⟨s₀, hs₀, hname⟩ := (h.index _ _).mp hseen
  constructor
  · rw [map_name_modify]
    exact h.nodup
  · intro n
    rw [map_name_modify, h.mem_iff, exists_mem_concat]
    refine and_congr_right fun hn => (or_iff_left_of_imp ?_).symm
    rintro rfl
    exact ((h.mem_iff _).mp (List.mem_map.mpr ⟨s₀, List.mem_of_getElem? hs₀, hname⟩)).2
  · intro s hs
    obtain ⟨i, hi⟩ := List.getElem?_of_mem hs
    rw [getElem?_modify_addValue] at hi
    obtain ⟨old, hold, rfl⟩ := Option.map_eq_some_iff.mp hi
    obtain ⟨hhash, hvector⟩ := h.symbol old (List.mem_of_getElem? hold)
    rw [valuesOf_append]
    by_cases heq : at_ = i
    · obtain rfl : s₀ = old := Option.some.inj (hs₀.symm.trans (heq ▸ hold))
      rw [if_pos heq]
      show s₀.hash = gdbHash s₀.name ∧
        s₀.cuVector ++ _ = valuesOf items s₀.name ++ valuesOf _ s₀.name
      rw [hname, valuesOf_singleton_self, ← hname, hvector]
      exact ⟨hhash, rfl⟩
    · have hne : entry.name ≠ old.name := by
        intro hsame
        have hother := (h.index entry.name i).mpr ⟨old, hold, hsame.symm⟩
        exact heq (Option.some.inj (hseen.symm.trans hother))
      rw [if_neg heq, valuesOf_singleton_of_ne hne, List.append_nil]
      exact ⟨hhash, hvector⟩
  · intro n i
    rw [h.index, getElem?_modify_addValue]
    constructor
    · rintro ⟨s, hs, rfl⟩
      rw [hs]
      refine ⟨_, rfl, ?_⟩
      split <;> rfl
    · rintro ⟨s, hs, rfl⟩
      obtain ⟨old, hold, rfl⟩ := Option.map_eq_some_iff.mp hs
      refine ⟨old, hold, ?_⟩
      split <;> rfl

/-- **One more name.** -/
theorem Gathered.addName (h : Gathered shard items state) (first : ℕ)
    (hhash : entry.hash = gdbHash entry.name) :
    Gathered shard (items ++ [(entry, first)]) (addName shard first state entry) := by
  rw [Gdb.addName]
  by_cases hshard : entry.hash >>> 27 = shard
  · rw [if_neg (not_not.mpr hshard)]
    rw [hhash] at hshard
    cases hseen : state.index.lookup entry.name with
    | some at_ => exact h.extend hseen
    | none => exact h.push hhash hshard hseen
  · rw [if_pos hshard]
    rw [hhash] at hshard
    exact h.skip hshard

/-- **A shard gathers the names of its hashes.** -/
theorem gathered_foldl (h : Gathered shard items state) {more : List (NameEntry × ℕ)}
    (hhashed : Hashed more) :
    Gathered shard (items ++ more)
      (more.foldl (fun state x => addName shard x.2 state x.1) state) := by
  induction more generalizing items state with
  | nil => rwa [List.append_nil]
  | cons x more ih =>
    obtain ⟨hx, hmore⟩ := List.forall_mem_cons.mp hhashed
    have hnext := ih (h.addName x.2 hx) hmore
    rwa [List.append_assoc, List.singleton_append] at hnext

end Gather

/-! ### Symbols -/

section Symbols

variable {chunks : List Chunk} {names : List (List NameEntry)}

theorem shardSymbols_gathered (h : Hashed (occurrences chunks names)) (shard : ℕ) :
    ∃ state, shardSymbols (firstUnits chunks 0) names shard = state.symbols ∧
      Gathered shard (occurrences chunks names) state := by
  have hgathered := gathered_foldl (gathered_nil : Gathered shard [] _) h
  refine ⟨_, ?_, hgathered⟩
  simp only [shardSymbols, occurrences, List.foldl_flatMap, List.foldl_map]

/-- What the symbols are, but for their offsets. -/
structure Complete (items : List (NameEntry × ℕ)) (symbols : List Symbol) : Prop where
  nodup : (symbols.map (·.name)).Nodup
  mem_iff : ∀ n, n ∈ symbols.map (·.name) ↔ ∃ x ∈ items, x.1.name = n
  symbol : ∀ s ∈ symbols, s.hash = gdbHash s.name ∧ s.cuVector = valuesOf items s.name

/-- **The shards gather every name once.** -/
theorem complete_shards (h : Hashed (occurrences chunks names)) :
    Complete (occurrences chunks names)
      ((List.range SHARDS).flatMap (shardSymbols (firstUnits chunks 0) names)) := by
  have hshard (shard : ℕ) : ((shardSymbols (firstUnits chunks 0) names shard).map (·.name)).Nodup ∧
      (∀ n, n ∈ (shardSymbols (firstUnits chunks 0) names shard).map (·.name) ↔
        gdbHash n >>> 27 = shard ∧ ∃ x ∈ occurrences chunks names, x.1.name = n) ∧
      ∀ s ∈ shardSymbols (firstUnits chunks 0) names shard,
        s.hash = gdbHash s.name ∧ s.cuVector = valuesOf (occurrences chunks names) s.name := by
    obtain ⟨state, hstate, hgathered⟩ := shardSymbols_gathered h shard
    rw [hstate]
    exact ⟨hgathered.nodup, hgathered.mem_iff, hgathered.symbol⟩
  constructor
  · rw [List.map_flatMap]
    refine List.nodup_flatMap.mpr ⟨fun shard _ => (hshard shard).1, List.nodup_range.imp ?_⟩
    intro shard other hne n hn hn'
    exact hne (((hshard shard).2.1 n).mp hn |>.1.symm.trans (((hshard other).2.1 n).mp hn').1)
  · intro n
    rw [List.map_flatMap, List.mem_flatMap]
    constructor
    · rintro ⟨shard, -, hn⟩
      exact (((hshard shard).2.1 n).mp hn).2
    · intro hx
      refine ⟨gdbHash n >>> 27, List.mem_range.mpr ?_, ((hshard _).2.1 n).mpr ⟨rfl, hx⟩⟩
      have hlt := gdbHash_lt n
      rw [Nat.shiftRight_eq_div_pow, SHARDS]
      omega
  · intro s hs
    obtain ⟨shard, -, hs⟩ := List.mem_flatMap.mp hs
    exact (hshard shard).2.2 s hs

/-! ### Offsets -/

variable {set : Symbol → ℕ → Symbol} {length : Symbol → ℕ} {symbols assigned : List Symbol}
  {offset stop : ℕ}

theorem le_saturatingAdd_of_lt {a b : ℕ} (h : saturatingAdd a b < 2 ^ 32) :
    saturatingAdd a b = a + b := by
  rw [saturatingAdd, U64_MAX] at h ⊢
  omega

/-- **Every offset is the sum of the lengths before it.** -/
theorem assignOffsets_spec (h : assignOffsets set length symbols offset = .ok (assigned, stop))
    (hstop : stop < 2 ^ 32) :
    stop = offset + (symbols.map length).sum ∧ assigned.length = symbols.length ∧
      ∀ k s, symbols[k]? = some s →
        assigned[k]? = some (set s (offset + ((symbols.take k).map length).sum)) := by
  induction symbols generalizing offset assigned with
  | nil =>
    obtain ⟨rfl, rfl⟩ := Prod.mk.inj (Except.ok.inj h)
    exact ⟨by simp, rfl, fun k s hs => absurd hs (by simp)⟩
  | cons symbol symbols ih =>
    rw [assignOffsets] at h
    split at h
    swap
    · cases h
    obtain ⟨⟨rest, stop'⟩, hrest, h⟩ := bind_eq_ok.mp h
    obtain ⟨rfl, rfl⟩ := Prod.mk.inj (Except.ok.inj h)
    obtain ⟨hsum, hlength, hget⟩ := ih hrest
    have hadd : saturatingAdd offset (length symbol) = offset + length symbol :=
      le_saturatingAdd_of_lt (by omega)
    rw [hadd] at hsum hget
    refine ⟨?_, by rw [List.length_cons, List.length_cons, hlength], fun k s hs => ?_⟩
    · rw [hsum, List.map_cons, List.sum_cons, Nat.add_assoc]
    · cases k with
      | zero =>
        obtain rfl := Option.some.inj hs
        simp
      | succ k =>
        rw [List.getElem?_cons_succ] at hs ⊢
        rw [hget k s hs, List.take_succ_cons, List.map_cons, List.sum_cons, Nat.add_assoc]

/-- Where symbols stand in the pool: CU vectors one behind the other, and names behind them. -/
structure Laid (symbols : List Symbol) (poolSize : ℕ) : Prop where
  size : poolSize = (symbols.map fun s => (s.cuVector.length + 1) * 4).sum +
    (symbols.map nameLength).sum
  lt : poolSize < 2 ^ 32
  vector : ∀ k s, symbols[k]? = some s →
    s.cuVectorOffset = ((symbols.take k).map fun s => (s.cuVector.length + 1) * 4).sum
  name : ∀ k s, symbols[k]? = some s → s.nameOffset =
    (symbols.map fun s => (s.cuVector.length + 1) * 4).sum + ((symbols.take k).map nameLength).sum

/-- Symbols but for their offsets. -/
def Similar (s t : Symbol) : Prop := t.name = s.name ∧ t.hash = s.hash ∧ t.cuVector = s.cuVector

section

variable {α : Type} {f : Symbol → α} {l m : List Symbol} (hf : ∀ s t, Similar s t → f t = f s)
  (hlength : m.length = l.length)
  (h : ∀ (k : ℕ) s, l[k]? = some s → ∃ t, m[k]? = some t ∧ Similar s t)

include hf hlength h

theorem map_take_congr (k : ℕ) :
    (m.take k).map f = (l.take k).map f := by
  rw [List.map_take, List.map_take]
  congr 1
  refine List.ext_getElem? fun i => ?_
  rw [List.getElem?_map, List.getElem?_map]
  cases hl : l[i]? with
  | none => rw [List.getElem?_eq_none_iff.mpr (hlength.trans_le (List.getElem?_eq_none_iff.mp hl))]
  | some s =>
    obtain ⟨t, ht, hsimilar⟩ := h i s hl
    rw [ht, Option.map_some, Option.map_some, hf s t hsimilar]

theorem map_congr :
    m.map f = l.map f := by
  have htake := map_take_congr hf hlength h l.length
  rwa [List.take_length, ← hlength, List.take_length] at htake

end

/-- The length of a CU vector, where it is computed without overflow. -/
theorem vectorLength_eq {l : List Symbol} (h : (l.map vectorLength).sum < 2 ^ 32) :
    ∀ s ∈ l, vectorLength s = (s.cuVector.length + 1) * 4 := by
  intro s hs
  have hlt : vectorLength s < 2 ^ 32 :=
    (List.single_le_sum (fun _ _ => Nat.zero_le _) _ (List.mem_map_of_mem hs)).trans_lt h
  rw [vectorLength, U64_MAX] at hlt ⊢
  omega

/-- **The symbols and their places in the pool.** -/
theorem createSymbols_spec (hhashed : Hashed (occurrences chunks names)) {poolSize : ℕ}
    (h : createSymbols chunks names = .ok (symbols, poolSize)) :
    Complete (occurrences chunks names) symbols ∧ Laid symbols poolSize := by
  have hcomplete := complete_shards hhashed
  generalize hraw : (List.range SHARDS).flatMap (shardSymbols (firstUnits chunks 0) names) = raw
    at hcomplete
  rw [createSymbols, hraw, placeSymbols] at h
  obtain ⟨⟨middle, offset⟩, hvectors, h⟩ := bind_eq_ok.mp h
  obtain ⟨⟨last, offset'⟩, hnames, h⟩ := bind_eq_ok.mp h
  replace h : (if offset' < 2 ^ 32 then .ok (last, offset') else .error Error.limit) =
    Except.ok (symbols, poolSize) := h
  split at h
  swap
  · cases h
  rename_i hlt
  obtain ⟨rfl, rfl⟩ := Prod.mk.inj (Except.ok.inj h)
  obtain ⟨hstop, hlast, hgetLast⟩ := assignOffsets_spec hnames hlt
  obtain ⟨hstop', hmiddle, hgetMiddle⟩ := assignOffsets_spec hvectors (by omega)
  have hexact := vectorLength_eq (show (raw.map vectorLength).sum < 2 ^ 32 by omega)
  have htake (k : ℕ) : (raw.take k).map vectorLength =
      (raw.take k).map fun s => (s.cuVector.length + 1) * 4 :=
    List.map_congr_left fun s hs => hexact s (List.mem_of_mem_take hs)
  rw [List.map_congr_left hexact] at hstop'
  -- Every symbol with both its offsets.
  have hget (k : ℕ) (s : Symbol) (hs : raw[k]? = some s) : last[k]? = some
      ⟨s.name, s.hash, s.cuVector, 0 + ((raw.take k).map vectorLength).sum,
        offset + ((middle.take k).map nameLength).sum⟩ := hgetLast k _ (hgetMiddle k s hs)
  have hsimilar (k : ℕ) (s : Symbol) (hs : raw[k]? = some s) :
      ∃ t, last[k]? = some t ∧ Similar s t := ⟨_, hget k s hs, rfl, rfl, rfl⟩
  have hmiddleSimilar (k : ℕ) (s : Symbol) (hs : raw[k]? = some s) :
      ∃ t, middle[k]? = some t ∧ Similar s t := ⟨_, hgetMiddle k s hs, rfl, rfl, rfl⟩
  have hlength := hlast.trans hmiddle
  have hback (k : ℕ) (t : Symbol) (ht : last[k]? = some t) : ∃ s, raw[k]? = some s ∧ t =
      ⟨s.name, s.hash, s.cuVector, 0 + ((raw.take k).map vectorLength).sum,
        offset + ((middle.take k).map nameLength).sum⟩ := by
    have hk := (List.getElem?_eq_some_iff.mp ht).1
    refine ⟨raw[k], List.getElem?_eq_getElem (hlength ▸ hk), ?_⟩
    exact Option.some.inj (ht.symm.trans (hget k _ (List.getElem?_eq_getElem (hlength ▸ hk))))
  have hvector : ∀ s t, Similar s t → (t.cuVector.length + 1) * 4 = (s.cuVector.length + 1) * 4 :=
    fun s t hst => by rw [hst.2.2]
  have hname : ∀ s t, Similar s t → nameLength t = nameLength s :=
    fun s t hst => by rw [nameLength, nameLength, hst.1]
  constructor
  · have hnames : last.map (·.name) = raw.map (·.name) :=
      map_congr (fun s t hst => hst.1) hlength hsimilar
    refine ⟨hnames ▸ hcomplete.nodup, hnames ▸ hcomplete.mem_iff, fun t ht => ?_⟩
    obtain ⟨k, hk⟩ := List.getElem?_of_mem ht
    obtain ⟨s, hs, rfl⟩ := hback k t hk
    exact hcomplete.symbol s (List.mem_of_getElem? hs)
  · constructor
    · rw [map_congr hvector hlength hsimilar, map_congr hname hlength hsimilar,
        ← map_congr hname hmiddle hmiddleSimilar, hstop, hstop', Nat.zero_add]
    · exact hlt
    · intro k t hk
      obtain ⟨s, hs, rfl⟩ := hback k t hk
      rw [map_take_congr hvector hlength hsimilar, ← htake, Nat.zero_add]
    · intro k t hk
      obtain ⟨s, hs, rfl⟩ := hback k t hk
      show offset + ((middle.take k).map nameLength).sum = _
      rw [map_congr hvector hlength hsimilar, map_take_congr hname hlength hsimilar,
        ← map_take_congr hname hmiddle hmiddleSimilar, hstop', Nat.zero_add]

end Symbols

/-! ### The pool -/

section Pool

variable {index : GdbIndex}

/-- The bytes of an element stand behind those of the elements before it. -/
theorem standsAt_flatMap_take {α : Type} {f : α → List UInt8} {g : α → ℕ} {l : List α} {k : ℕ}
    {x : α} (hg : ∀ y ∈ l, (f y).length = g y) (h : l[k]? = some x) :
    StandsAt (l.flatMap f) ((l.take k).map g).sum (f x) := by
  obtain ⟨hk, rfl⟩ := List.getElem?_eq_some_iff.mp h
  have hlength : ((l.take k).map g).sum = ((l.take k).flatMap f).length := by
    rw [List.length_flatMap, List.map_congr_left fun y hy => hg y (List.mem_of_mem_take hy)]
  have hsplit : l.flatMap f =
      (l.take k).flatMap f ++ f l[k] ++ (l.drop (k + 1)).flatMap f := by
    rw [List.append_assoc, ← List.flatMap_cons, ← List.flatMap_append]
    congr 1
    rw [← List.drop_eq_getElem_cons hk, List.take_append_drop]
  rw [hsplit, hlength]
  exact standsAt_append _ _ _

theorem length_vectorBytes (s : Symbol) : (vectorBytes s).length = (s.cuVector.length + 1) * 4 := by
  rw [vectorBytes, List.length_append, length_leBytes, List.length_flatMap,
    List.map_congr_left fun _ _ => length_leBytes 4 _, List.map_const', List.sum_replicate_nat]
  omega

theorem length_nameBytes (s : Symbol) : (nameBytes s).length = nameLength s := by
  rw [nameBytes, List.length_append, nameLength]
  rfl

theorem sum_take_le {α : Type} (g : α → ℕ) (l : List α) (k : ℕ) :
    ((l.take k).map g).sum ≤ (l.map g).sum :=
  ((List.take_sublist k l).map g).sum_le_sum fun _ _ => Nat.zero_le _

/-- The bounds of a symbol's numbers. -/
structure Bounded (s : Symbol) : Prop where
  length : s.cuVector.length < 2 ^ 32
  vector : s.cuVectorOffset < 2 ^ 32
  name : s.nameOffset < 2 ^ 32
  pos : 0 < s.nameOffset

theorem Laid.bounded {symbols : List Symbol} {poolSize : ℕ} (h : Laid symbols poolSize) :
    ∀ s ∈ symbols, Bounded s := by
  intro s hs
  obtain ⟨k, hk⟩ := List.getElem?_of_mem hs
  have hle : (s.cuVector.length + 1) * 4 ≤ (symbols.map fun s => (s.cuVector.length + 1) * 4).sum :=
    List.single_le_sum (fun _ _ => Nat.zero_le _) _ (List.mem_map.mpr ⟨s, hs, rfl⟩)
  have hvector := sum_take_le (fun s : Symbol => (s.cuVector.length + 1) * 4) symbols k
  have hname := sum_take_le nameLength symbols k
  have hsize := h.size
  have hlt := h.lt
  constructor
  · omega
  · rw [h.vector k s hk]
    omega
  · rw [h.name k s hk]
    omega
  · rw [h.name k s hk]
    omega

/-- **The pool has the planned size, and everything stands at its offset.** -/
theorem poolBytes_spec {poolSize : ℕ} (h : Laid index.symbols poolSize) :
    index.poolBytes.length = poolSize ∧ ∀ s ∈ index.symbols,
      StandsAt index.poolBytes s.cuVectorOffset (vectorBytes s) ∧
        StandsAt index.poolBytes s.nameOffset (nameBytes s) := by
  have hvectors : (index.symbols.flatMap vectorBytes).length =
      (index.symbols.map fun s => (s.cuVector.length + 1) * 4).sum := by
    rw [List.length_flatMap, List.map_congr_left fun s _ => length_vectorBytes s]
  have hnames : (index.symbols.flatMap nameBytes).length = (index.symbols.map nameLength).sum := by
    rw [List.length_flatMap, List.map_congr_left fun s _ => length_nameBytes s]
  constructor
  · rw [GdbIndex.poolBytes, List.length_append, hvectors, hnames, h.size]
  · intro s hs
    obtain ⟨k, hk⟩ := List.getElem?_of_mem hs
    constructor
    · rw [h.vector k s hk]
      exact (standsAt_flatMap_take (fun s _ => length_vectorBytes s) hk).append _
    · rw [h.name k s hk, ← hvectors]
      exact (standsAt_flatMap_take (fun s _ => length_nameBytes s) hk).append_left _

end Pool

/-! ### The table -/

section Table

variable {m : ℕ} {hash : ℕ}

/-- Whether a slot is used. -/
def used (slot : ℕ × ℕ) : Bool := slot.1 != 0

/-- What a symbol's slot holds. -/
def slotOf (symbol : Symbol) : ℕ × ℕ := (symbol.nameOffset, symbol.cuVectorOffset)

/-- The slots that are tried for a hash. -/
def pathOf (size hash : ℕ) : ℕ → ℕ := probeAt (hash % size) (slotStep (size - 1) hash) size

theorem mask_mod (x m : ℕ) : x &&& (2 ^ m - 1) = x % 2 ^ m := Nat.and_two_pow_sub_one_eq_mod x m

theorem coprime_slotStep (m hash : ℕ) (mask : ℕ) : (2 ^ m).Coprime (slotStep mask hash) := by
  have hodd : slotStep mask hash % 2 = 1 := by
    rw [slotStep, Nat.or_mod_two_eq_one]
    exact .inr rfl
  exact Nat.Coprime.pow_left m (Nat.coprime_two_left.mpr (Nat.odd_iff.mpr hodd))

theorem exhausts_pathOf (m hash : ℕ) : Exhausts (pathOf (2 ^ m) hash) (2 ^ m) :=
  exhausts_probeAt (Nat.two_pow_pos m) (coprime_slotStep m hash _)

theorem firstSlot_eq (m hash : ℕ) : firstSlot (2 ^ m - 1) hash = pathOf (2 ^ m) hash 0 := by
  rw [firstSlot, mask_mod, pathOf, probeAt_zero (Nat.mod_lt _ (Nat.two_pow_pos m))]

theorem isProbing_nextSlot (hm : m ≤ 32) (hash : ℕ) :
    IsProbing (nextSlot (2 ^ m - 1) hash) (pathOf (2 ^ m) hash) := by
  intro j
  rw [nextSlot, mask_mod, Nat.mod_mod_of_dvd _ (Nat.pow_dvd_pow 2 hm)]
  exact probeAt_succ j

theorem isProbing_gdb (m hash : ℕ) :
    IsProbing (fun i => (i + slotStep (2 ^ m - 1) hash) &&& (2 ^ m - 1)) (pathOf (2 ^ m) hash) := by
  intro j
  show (_ + _) &&& (2 ^ m - 1) = _
  rw [mask_mod]
  exact probeAt_succ j

theorem insertSymbols_eq (m fuel : ℕ) (symbols : List Symbol) (table : List (ℕ × ℕ)) :
    insertSymbols (2 ^ m - 1) fuel symbols table =
      insertAll used (fun s => nextSlot (2 ^ m - 1) s.hash) (fun s => pathOf (2 ^ m) s.hash 0)
        slotOf fuel symbols table := by
  induction symbols generalizing table with
  | nil => rfl
  | cons symbol symbols ih =>
    rw [insertSymbols, insertAll, firstSlot_eq]
    show (seek (free used table) _ fuel _).bind _ = _
    congr 1
    funext i
    exact ih _

/-- The number of slots: a power of two, and more than the names. -/
theorem symtabSlots_spec {names : ℕ} (h : symtabSlots names < 2 ^ 32) :
    names < symtabSlots names ∧ ∃ m ≤ 32, symtabSlots names = 2 ^ m := by
  have hle := Nat.le_pow_clog (show 1 < 2 by decide) (saturatingMul names 4 / 3 + 1)
  simp only [symtabSlots, checkedNextPowerOfTwo] at h ⊢
  generalize Nat.clog 2 (saturatingMul names 4 / 3 + 1) = k at h hle ⊢
  by_cases hk : 2 ^ k < 2 ^ 64
  · rw [if_pos hk, Option.getD_some] at h ⊢
    have hk' : 2 ^ k < 2 ^ 32 := (Nat.le_max_left _ _).trans_lt h
    constructor
    · rw [saturatingMul, U64_MAX] at hle
      omega
    · rcases Nat.le_total (2 ^ k) 1024 with hsmall | hlarge
      · exact ⟨10, by decide, max_eq_right hsmall⟩
      · exact ⟨k, ((Nat.pow_lt_pow_iff_right (by decide)).mp hk').le, max_eq_left hlarge⟩
  · rw [if_neg hk, Option.getD_none, U64_MAX] at h
    omega

end Table

/-! ### The section -/

section Render

variable {index : GdbIndex} {infoOffset address : ℕ → ℕ → Option ℕ}

theorem length_flatMap_const {α : Type} {f : α → List UInt8} {l : List α} {n : ℕ}
    (h : ∀ x ∈ l, (f x).length = n) : (l.flatMap f).length = l.length * n := by
  rw [List.length_flatMap, List.map_congr_left h, List.map_const', List.sum_replicate_nat]

theorem length_unitBytes (index : GdbIndex) (infoOffset : ℕ → ℕ → Option ℕ) :
    (index.unitBytes infoOffset).length =
      (index.chunks.map fun chunk => chunk.units.length).sum * 16 := by
  rw [GdbIndex.unitBytes]
  induction index.chunks with
  | nil => rfl
  | cons chunk chunks ih =>
    rw [List.flatMap_cons, List.length_append, ih, List.map_cons, List.sum_cons, Nat.add_mul]
    congr 1
    refine length_flatMap_const fun unit _ => ?_
    rw [List.length_append, length_leBytes, length_leBytes]

theorem length_areaBytes (address : ℕ → ℕ → Option ℕ) (chunks : List Chunk) (preceding : ℕ) :
    (areaBytes address chunks preceding).length =
      (chunks.map fun chunk => chunk.areas.length).sum * 20 := by
  induction chunks generalizing preceding with
  | nil => rfl
  | cons chunk chunks ih =>
    rw [areaBytes, List.length_append, ih, List.map_cons, List.sum_cons, Nat.add_mul]
    congr 1
    refine length_flatMap_const fun area _ => ?_
    simp only [List.length_append, length_leBytes]

/-- The size, where it is computed without overflow. -/
theorem size_eq (h : index.size < 2 ^ 32) : index.size =
    24 + (index.chunks.map fun chunk => chunk.units.length).sum * 16 +
      (index.chunks.map fun chunk => chunk.areas.length).sum * 20 + index.symtabSlots * 8 +
        index.poolSize := by
  simp only [GdbIndex.size, saturatingAdd, saturatingMul, U64_MAX, HEADER_SIZE] at h ⊢
  omega

/-- A slot in the section. -/
def slotBytes (slot : ℕ × ℕ) : List UInt8 := leBytes 4 slot.1 ++ leBytes 4 slot.2

theorem length_slotBytes (slot : ℕ × ℕ) : (slotBytes slot).length = 8 := by
  rw [slotBytes, List.length_append, length_leBytes, length_leBytes]

/-- A section with a table and a pool. -/
structure Holds (out : List UInt8) (symtab pool : ℕ) (table : List (ℕ × ℕ))
    (poolBytes : List UInt8) : Prop where
  symtab_eq : Read.word out 16 = some symtab
  pool_eq : Read.word out 20 = some pool
  slots : pool = symtab + table.length * 8
  table_standsAt : StandsAt out symtab (table.flatMap slotBytes)
  pool_standsAt : StandsAt out pool poolBytes

/-- **The section has the planned size, and holds the table and the pool.** -/
theorem render_spec (infoOffset address : ℕ → ℕ → Option ℕ) (hsize : index.size < 2 ^ 32)
    (hpool : index.poolBytes.length = index.poolSize)
    {table : List (ℕ × ℕ)} (htable : insertSymbols (index.symtabSlots - 1) index.symtabSlots
      index.symbols (List.replicate index.symtabSlots (0, 0)) = some table)
    (hlength : table.length = index.symtabSlots) :
    ∃ out symtab pool, index.render infoOffset address = some (.ok out) ∧
      out.length = index.size ∧ Holds out symtab pool table index.poolBytes := by
  have hsum := size_eq hsize
  have hunits := length_unitBytes index infoOffset
  have hareas := length_areaBytes address index.chunks 0
  have hslots : (table.flatMap slotBytes).length = index.symtabSlots * 8 := by
    rw [length_flatMap_const fun slot _ => length_slotBytes slot, hlength]
  generalize hU : index.unitBytes infoOffset = units at hunits
  generalize hA : areaBytes address index.chunks 0 = areas at hareas
  have hsmall {n : ℕ} (h : n < 2 ^ 32) : toU32 n = n := if_pos h
  have hheader (header : List ℕ) (rest : List UInt8) {k value : ℕ} (hk : header[k]? = some value)
      (hvalue : value < 2 ^ 32) :
      Read.word (header.flatMap (leBytes 4) ++ rest) (k * 4) = some value :=
    readLe_of_standsAt ((standsAt_flatMap (length_leBytes 4) hk).append rest) (by decide) (by omega)
  have hrender : index.render infoOffset address =
      let out := [VERSION, toU32 HEADER_SIZE, toU32 (HEADER_SIZE + units.length),
        toU32 (HEADER_SIZE + units.length), toU32 (HEADER_SIZE + units.length + areas.length),
        toU32 (HEADER_SIZE + units.length + areas.length +
          (table.flatMap slotBytes).length)].flatMap (leBytes 4) ++ units ++ areas ++
        table.flatMap slotBytes ++ index.poolBytes
      some (if out.length ≠ index.size then .error .internal else .ok out) := by
    rw [GdbIndex.render, hU, hA, hsmall (by omega), htable]
    rfl
  have hlen : ∀ header : List ℕ, (header.flatMap (leBytes 4)).length = header.length * 4 :=
    fun header => length_flatMap_const fun _ _ => length_leBytes 4 _
  rw [hrender, HEADER_SIZE, hsmall (show 24 < 2 ^ 32 by decide),
    hsmall (show 24 + units.length < 2 ^ 32 by omega),
    hsmall (show 24 + units.length + areas.length < 2 ^ 32 by omega),
    hsmall (show 24 + units.length + areas.length + (table.flatMap slotBytes).length < 2 ^ 32 by
      omega)]
  generalize hheader' : [VERSION, 24, 24 + units.length, 24 + units.length,
    24 + units.length + areas.length,
    24 + units.length + areas.length + (table.flatMap slotBytes).length] = header
  have hcount : (header.flatMap (leBytes 4)).length = 24 := by
    rw [hlen, ← hheader']
    rfl
  have hout : (header.flatMap (leBytes 4) ++ units ++ areas ++ table.flatMap slotBytes ++
      index.poolBytes).length = index.size := by
    simp only [List.length_append]
    omega
  refine ⟨_, 24 + units.length + areas.length,
    24 + units.length + areas.length + (table.flatMap slotBytes).length,
    congrArg some (if_neg (not_not.mpr hout)), hout, ?_, ?_, by rw [hslots, hlength], ?_, ?_⟩
  · simp only [List.append_assoc]
    exact hheader header _ (k := 4) (by rw [← hheader']; rfl) (by omega)
  · simp only [List.append_assoc]
    exact hheader header _ (k := 5) (by rw [← hheader']; rfl) (by omega)
  · have hbefore : (header.flatMap (leBytes 4) ++ units ++ areas).length =
        24 + units.length + areas.length := by
      rw [List.length_append, List.length_append, hcount]
    rw [← hbefore]
    exact standsAt_append _ _ _
  · have hbefore : (header.flatMap (leBytes 4) ++ units ++ areas ++
        table.flatMap slotBytes).length =
          24 + units.length + areas.length + (table.flatMap slotBytes).length := by
      rw [List.length_append, List.length_append, List.length_append, hcount]
    rw [← hbefore]
    exact (standsAt_self index.poolBytes).append_left _

/-! ### What GDB reads -/

variable {out : List UInt8} {symtab pool : ℕ} {table : List (ℕ × ℕ)} {poolBytes : List UInt8}

theorem slotAt_eq (h : Holds out symtab pool table poolBytes) {i : ℕ} {slot : ℕ × ℕ}
    (hslot : table[i]? = some slot) (h₁ : slot.1 < 2 ^ 32) (h₂ : slot.2 < 2 ^ 32) :
    Read.slotAt out symtab i = some slot := by
  have hstands := h.table_standsAt.trans (standsAt_flatMap length_slotBytes hslot)
    (by rw [length_slotBytes]; decide)
  rw [slotBytes, standsAt_leBytes_append_iff] at hstands
  have hname : Read.word out (symtab + i * 8) = some slot.1 :=
    readLe_of_standsAt hstands.1 (by decide) (by omega)
  have hvector : Read.word out (symtab + i * 8 + 4) = some slot.2 :=
    readLe_of_standsAt hstands.2 (by decide) (by omega)
  rw [Read.slotAt, hname, hvector]
  rfl

theorem words_eq {values : List ℕ} (hvalues : ∀ v ∈ values, v < 2 ^ 32) {pos : ℕ}
    (h : StandsAt out pos (values.flatMap (leBytes 4))) :
    Read.words out pos values.length = some values := by
  induction values generalizing pos with
  | nil => rfl
  | cons value values ih =>
    obtain ⟨hvalue, hrest⟩ := List.forall_mem_cons.mp hvalues
    rw [List.flatMap_cons, standsAt_leBytes_append_iff] at h
    have hword : Read.word out pos = some value :=
      readLe_of_standsAt h.1 (by decide) (by omega)
    rw [List.length_cons, Read.words, hword, Option.bind_eq_bind, Option.bind_some,
      ih hrest h.2]
    rfl

theorem vectorAt_eq {s : Symbol} (hbounded : Bounded s) (hvalues : ∀ v ∈ s.cuVector, v < 2 ^ 32)
    {pos : ℕ} (h : StandsAt out pos (vectorBytes s)) :
    Read.vectorAt out pos = some s.cuVector := by
  rw [vectorBytes, if_pos hbounded.length, standsAt_leBytes_append_iff] at h
  have hword : Read.word out pos = some s.cuVector.length := by
    have hlt := hbounded.length
    exact readLe_of_standsAt h.1 (by decide) (by omega)
  rw [Read.vectorAt, hword, Option.bind_eq_bind, Option.bind_some, words_eq hvalues h.2]

theorem eq_of_terminated {name other : List UInt8} (h : 0 ∉ other)
    (hpre : name ++ [0] <+: other ++ [0]) : name = other := by
  rcases List.prefix_concat_iff.mp hpre with heq | hin
  · exact List.append_cancel_right heq
  · exact absurd (hin.subset (List.mem_append_right _ List.mem_cons_self)) h

/-- Strings are the same if they end at the same place. -/
theorem sameString_iff {name other : List UInt8} (hname : 0 ∉ name) (hother : 0 ∉ other) {pos : ℕ}
    (h : StandsAt out pos (name ++ [0])) : Read.sameString out pos other = true ↔ other = name := by
  have hpre : name ++ [0] <+: out.drop pos := by
    rw [← h.take_drop]
    exact List.take_prefix _ _
  rw [Read.sameString, List.isPrefixOf_iff_prefix]
  constructor
  · intro hsame
    rcases List.prefix_or_prefix_of_prefix hsame hpre with hle | hle
    · exact eq_of_terminated hname hle
    · exact (eq_of_terminated hother hle).symm
  · rintro rfl
    exact hpre

end Render

/-! ### Lookups -/

section Lookup

variable {chunks : List Chunk} {names : List (List NameEntry)} {index : GdbIndex}
  {infoOffset address : ℕ → ℕ → Option ℕ}

/-- What is promised of the names of objects: hashes, no NUL inside, and values of 32 bits. -/
structure NamesOk (names : List (List NameEntry)) : Prop where
  hashed : ∀ entries ∈ names, ∀ e ∈ entries, e.hash = gdbHash e.name
  terminated : ∀ entries ∈ names, ∀ e ∈ entries, 0 ∉ e.name
  value_lt : ∀ entries ∈ names, ∀ e ∈ entries, e.value < 2 ^ 32

theorem exists_of_mem_occurrences {x : NameEntry × ℕ} (h : x ∈ occurrences chunks names) :
    ∃ entries ∈ names, x.1 ∈ entries := by
  obtain ⟨object, hobject, hx⟩ := List.mem_flatMap.mp h
  obtain ⟨e, he, rfl⟩ := List.mem_map.mp hx
  exact ⟨object.1, (List.of_mem_zip hobject).1, he⟩

/-- A slot with a name, as GDB reads it. -/
def SlotOf (out : List UInt8) (name : List UInt8) (i : ℕ) : Prop :=
  ∃ symtab pool slot, Read.word out 16 = some symtab ∧ Read.word out 20 = some pool ∧
    i < (pool - symtab) / 8 ∧ Read.slotAt out symtab i = some slot ∧ slot ≠ (0, 0) ∧
      Read.sameString out (pool + slot.1) name = true

/-- The values that a lookup should find. -/
def valuesIn (chunks : List Chunk) (names : List (List NameEntry)) (name : List UInt8) :
    Option (List ℕ) :=
  if ∃ x ∈ occurrences chunks names, x.1.name = name then
    some (valuesOf (occurrences chunks names) name)
  else none

theorem valuesIn_of_occurs {name : List UInt8}
    (h : ∃ x ∈ occurrences chunks names, x.1.name = name) :
    valuesIn chunks names name = some (valuesOf (occurrences chunks names) name) := if_pos h

theorem valuesOf_lt (items : List (NameEntry × ℕ)) (name : List UInt8) :
    ∀ v ∈ valuesOf items name, v < 2 ^ 32 := by
  intro v hv
  obtain ⟨x, -, rfl⟩ := List.mem_map.mp hv
  exact Nat.mod_lt _ (by decide)

theorem Laid.nodup {symbols : List Symbol} {poolSize : ℕ} (h : Laid symbols poolSize) :
    (symbols.map slotOf).Nodup := by
  refine List.pairwise_map.mpr (List.pairwise_iff_getElem.mpr fun i j hi hj hlt heq => ?_)
  have hname (k : ℕ) (hk : k < symbols.length) := h.name k _ (List.getElem?_eq_getElem hk)
  have hsame : symbols[i].nameOffset = symbols[j].nameOffset := congrArg Prod.fst heq
  have hle : ((symbols.take (i + 1)).map nameLength).sum ≤ ((symbols.take j).map nameLength).sum :=
    ((List.take_sublist_take_left hlt).map nameLength).sum_le_sum fun _ _ => Nat.zero_le _
  rw [List.take_succ_eq_append_getElem hi, List.map_append, List.sum_append, List.map_cons,
    List.map_nil, List.sum_singleton, nameLength] at hle
  rw [hname i hi, hname j hj] at hsame
  omega

/-- **The table that is written.** -/
theorem insertSymbols_spec {symbols : List Symbol} {poolSize m : ℕ} (h : Laid symbols poolSize)
    (hroom : symbols.length < 2 ^ m) (hm : m ≤ 32) :
    ∃ table,
      insertSymbols (2 ^ m - 1) (2 ^ m) symbols (List.replicate (2 ^ m) (0, 0)) = some table ∧
      table.length = 2 ^ m ∧
        Filled used (0, 0) (fun s : Symbol => pathOf (2 ^ m) s.hash) slotOf symbols table := by
  have hlength : (List.replicate (2 ^ m) ((0, 0) : ℕ × ℕ)).length = 2 ^ m := List.length_replicate
  have hempty : Filled used (0, 0) (fun s : Symbol => pathOf (2 ^ m) s.hash) slotOf []
      (List.replicate (2 ^ m) (0, 0)) := filled_nil rfl _
  have hused : ∀ s ∈ symbols, used (slotOf s) = true := fun s hs =>
    bne_iff_ne.mpr (h.bounded s hs).pos.ne'
  have hpath : ∀ s ∈ symbols, IsProbing (nextSlot (2 ^ m - 1) s.hash) (pathOf (2 ^ m) s.hash) :=
    fun s _ => isProbing_nextSlot hm s.hash
  have hall : ∀ s ∈ symbols, Exhausts (pathOf (2 ^ m) s.hash)
      (List.replicate (2 ^ m) ((0, 0) : ℕ × ℕ)).length := by
    intro s _
    rw [hlength]
    exact exhausts_pathOf m s.hash
  have hnodup : (([] ++ symbols).map slotOf).Nodup := by
    rw [List.nil_append]
    exact h.nodup
  obtain ⟨table, htable, hsame, hfilled⟩ := hempty.insertAll rfl hused hpath hall
    (by rw [hlength, List.length_nil, Nat.zero_add]; exact hroom) hlength.le hnodup
  rw [List.nil_append] at hfilled
  exact ⟨table, (insertSymbols_eq m _ _ _).trans htable, hsame.trans hlength, hfilled⟩

/-- A section that holds the symbols: their slots, and where these lead. -/
structure Answers (items : List (NameEntry × ℕ)) (symbols : List Symbol) (table : List (ℕ × ℕ))
    (m : ℕ) (out : List UInt8) (symtab pool : ℕ) : Prop where
  complete : Complete items symbols
  bounded : ∀ s ∈ symbols, Bounded s
  terminated : ∀ s ∈ symbols, 0 ∉ s.name
  filled : Filled used (0, 0) (fun s : Symbol => pathOf (2 ^ m) s.hash) slotOf symbols table
  length : table.length = 2 ^ m
  room : symbols.length < 2 ^ m
  slotAt : ∀ i slot, table[i]? = some slot → Read.slotAt out symtab i = some slot
  symtab_eq : Read.word out 16 = some symtab
  pool_eq : Read.word out 20 = some pool
  slots : (pool - symtab) / 8 = 2 ^ m
  vector : ∀ s ∈ symbols, StandsAt out (pool + s.cuVectorOffset) (vectorBytes s)
  name : ∀ s ∈ symbols, StandsAt out (pool + s.nameOffset) (nameBytes s)

section Answers

variable {items : List (NameEntry × ℕ)} {symbols : List Symbol} {table : List (ℕ × ℕ)} {m : ℕ}
  {out name : List UInt8} {symtab pool : ℕ}

theorem Answers.same (h : Answers items symbols table m out symtab pool) (hname : 0 ∉ name)
    {s : Symbol} (hs : s ∈ symbols) :
    Read.sameString out (pool + s.nameOffset) name = true ↔ name = s.name :=
  sameString_iff (h.terminated s hs) hname (h.name s hs)

theorem Answers.slotOf_ne (h : Answers items symbols table m out symtab pool) {s : Symbol}
    (hs : s ∈ symbols) : slotOf s ≠ (0, 0) := fun heq =>
  (h.bounded s hs).pos.ne' (congrArg Prod.fst heq)

/-- GDB ends its search at an empty slot, or at one with the name. -/
theorem Answers.ends (h : Answers items symbols table m out symtab pool) (name : List UInt8) :
    Ends used (fun slot => Read.sameString out (pool + slot.1) name) table
      (Read.stops out symtab pool name) := by
  intro i slot hslot
  rw [Read.stops, h.slotAt i slot hslot, Option.all_some]
  congr 1
  rcases h.filled.mem slot (List.mem_of_getElem? hslot) with rfl | ⟨s, hs, rfl⟩
  · rfl
  · rw [h.filled.used_entry s hs, beq_eq_false_iff_ne.mpr (h.slotOf_ne hs)]
    rfl

theorem Answers.eq_of_name (h : Answers items symbols table m out symtab pool) {s t : Symbol}
    (hs : s ∈ symbols) (ht : t ∈ symbols) (hname : s.name = t.name) : s = t :=
  List.inj_on_of_nodup_map h.complete.nodup hs ht hname

/-- **A name that occurs is found, in one slot.** -/
theorem Answers.found (h : Answers items symbols table m out symtab pool) {s : Symbol}
    (hs : s ∈ symbols) :
    Read.lookup out s.name = some (some s.cuVector) ∧ ∃! i, SlotOf out s.name i := by
  obtain ⟨hhash, hvector⟩ := h.complete.symbol s hs
  have hterminated := h.terminated s hs
  have honly : ∀ t ∈ symbols, Read.sameString out (pool + (slotOf t).1) s.name = true →
      slotOf t = slotOf s := fun t ht hsame =>
    congrArg slotOf (h.eq_of_name ht hs ((h.same hterminated ht).mp hsame).symm)
  obtain ⟨p, hseek, hp⟩ := h.filled.seek_entry rfl hs (isProbing_gdb m s.hash) (h.ends s.name)
    ((h.same hterminated hs).mpr rfl) honly h.length.le
  have hslot := h.slotAt p _ hp
  constructor
  · have hread : Read.vectorAt out (pool + s.cuVectorOffset) = some s.cuVector :=
      vectorAt_eq (h.bounded s hs) (hvector ▸ valuesOf_lt items s.name) (h.vector s hs)
    rw [← firstSlot_eq, hhash] at hseek
    simp only [Read.lookup, h.symtab_eq, h.pool_eq, h.slots, Option.bind_eq_bind,
      Option.bind_some, hseek, hslot, slotOf, hread]
    exact if_neg (h.slotOf_ne hs)
  · have hplt : p < 2 ^ m := h.length ▸ (List.getElem?_eq_some_iff.mp hp).1
    refine ⟨p, ⟨symtab, pool, slotOf s, h.symtab_eq, h.pool_eq, h.slots ▸ hplt, hslot,
      h.slotOf_ne hs, (h.same hterminated hs).mpr rfl⟩, ?_⟩
    rintro i ⟨symtab', pool', slot, hsymtab, hpool, hi, hread, hne, hsame⟩
    obtain rfl := Option.some.inj (h.symtab_eq.symm.trans hsymtab)
    obtain rfl := Option.some.inj (h.pool_eq.symm.trans hpool)
    rw [h.slots, ← h.length] at hi
    have hget := List.getElem?_eq_getElem hi
    obtain rfl := Option.some.inj (hread.symm.trans (h.slotAt i _ hget))
    rcases h.filled.mem _ (List.getElem_mem hi) with heq | ⟨t, ht, heq⟩
    · exact absurd heq hne
    · rw [← heq] at hsame hget
      rw [honly t ht hsame] at hget
      exact h.filled.distinct _ _ _ hget hp (h.filled.used_entry s hs)

/-- **A name that does not occur is not found.** -/
theorem Answers.missing (h : Answers items symbols table m out symtab pool) (hname : 0 ∉ name)
    (hnot : name ∉ symbols.map (·.name)) : Read.lookup out name = some none := by
  have hno : ∀ s ∈ symbols, Read.sameString out (pool + (slotOf s).1) name = false := by
    intro s hs
    refine Bool.eq_false_of_not_eq_true fun hsame => hnot ?_
    rw [(h.same hname hs).mp hsame]
    exact List.mem_map_of_mem hs
  obtain ⟨p, slot, hseek, hp, hunused⟩ := h.filled.seek_free rfl (isProbing_gdb m (gdbHash name))
    (h.length ▸ exhausts_pathOf m (gdbHash name)) (h.ends name) hno (h.length ▸ h.room) h.length.le
  have hempty : slot = (0, 0) := by
    rcases h.filled.mem slot (List.mem_of_getElem? hp) with heq | ⟨s, hs, rfl⟩
    · exact heq
    · rw [h.filled.used_entry s hs] at hunused
      cases hunused
  rw [← firstSlot_eq] at hseek
  simp only [Read.lookup, h.symtab_eq, h.pool_eq, h.slots, Option.bind_eq_bind,
    Option.bind_some, hseek, h.slotAt p _ hp, if_pos hempty]
  rfl

end Answers

/-- **Every lookup is answered.** -/
theorem lookup_spec (infoOffset address : ℕ → ℕ → Option ℕ) (hok : NamesOk names)
    (hbuild : build chunks names = .ok index)
    (hsize : index.size < 2 ^ 32) :
    ∃ out, index.render infoOffset address = some (.ok out) ∧ out.length = index.size ∧
      ∀ name, 0 ∉ name → Read.lookup out name = some (valuesIn chunks names name) ∧
        ((∃ x ∈ occurrences chunks names, x.1.name = name) → ∃! i, SlotOf out name i) := by
  obtain ⟨⟨symbols, poolSize⟩, hcreate, hindex⟩ := bind_eq_ok.mp hbuild
  obtain rfl := Except.ok.inj hindex
  have hhashed : Hashed (occurrences chunks names) := by
    intro x hx
    obtain ⟨entries, hentries, he⟩ := exists_of_mem_occurrences hx
    exact hok.hashed entries hentries x.1 he
  obtain ⟨hcomplete, hlaid⟩ := createSymbols_spec hhashed hcreate
  have hsum := size_eq hsize
  obtain ⟨hroom, m, hm, hslots⟩ := symtabSlots_spec (show symtabSlots symbols.length < 2 ^ 32 by
    simp only at hsum
    omega)
  generalize hindex : (⟨chunks, symbols, symtabSlots symbols.length, poolSize⟩ : GdbIndex) = index
    at hsize ⊢
  have hsymbols : index.symbols = symbols := by rw [← hindex]
  have hsymtab : index.symtabSlots = 2 ^ m := by rw [← hindex, ← hslots]
  have hpoolSize : index.poolSize = poolSize := by rw [← hindex]
  rw [← hsymbols] at hlaid
  obtain ⟨hpoolLength, hpool⟩ := poolBytes_spec hlaid
  rw [hsymbols] at hlaid hpool
  rw [hslots] at hroom
  obtain ⟨table, htable, hlength, hfilled⟩ := insertSymbols_spec hlaid hroom hm
  obtain ⟨out, symtab, pool, hrender, hout, hholds⟩ := render_spec infoOffset address
    hsize (hpoolLength.trans hpoolSize.symm)
    (by rw [hsymtab, hsymbols]; exact htable) (hlength.trans hsymtab.symm)
  have hbounded := hlaid.bounded
  have hanswers : Answers (occurrences chunks names) symbols table m out symtab pool := by
    refine ⟨hcomplete, hbounded, fun s hs => ?_, hfilled, hlength, hroom, fun i slot hslot => ?_,
      hholds.symtab_eq, hholds.pool_eq, ?_, fun s hs => ?_, fun s hs => ?_⟩
    · obtain ⟨x, hx, hname⟩ := (hcomplete.mem_iff _).mp (List.mem_map_of_mem hs)
      obtain ⟨entries, hentries, he⟩ := exists_of_mem_occurrences hx
      rw [← hname]
      exact hok.terminated entries hentries x.1 he
    · rcases hfilled.mem slot (List.mem_of_getElem? hslot) with rfl | ⟨s, hs, rfl⟩
      · exact slotAt_eq hholds hslot (by decide) (by decide)
      · exact slotAt_eq hholds hslot (hbounded s hs).name (hbounded s hs).vector
    · rw [hholds.slots, hlength]
      omega
    · exact hholds.pool_standsAt.trans (hpool s hs).1 (by rw [length_vectorBytes]; omega)
    · exact hholds.pool_standsAt.trans (hpool s hs).2 (by rw [length_nameBytes, nameLength]; omega)
  refine ⟨out, hrender, hout, fun name hname => ?_⟩
  by_cases hoccurs : ∃ x ∈ occurrences chunks names, x.1.name = name
  · obtain ⟨s, hs, rfl⟩ := List.mem_map.mp ((hcomplete.mem_iff name).mpr hoccurs)
    obtain ⟨hlookup, hunique⟩ := hanswers.found hs
    rw [valuesIn, if_pos hoccurs, hlookup, (hcomplete.symbol s hs).2]
    exact ⟨rfl, fun _ => hunique⟩
  · rw [valuesIn, if_neg hoccurs]
    exact ⟨hanswers.missing hname fun hmem => hoccurs ((hcomplete.mem_iff name).mp hmem),
      fun hx => absurd hx hoccurs⟩

end Lookup

/-! ### Kinds and units -/

section Units

variable {chunks : List Chunk} {names : List (List NameEntry)} {index : GdbIndex}
  {infoOffset address : ℕ → ℕ → Option ℕ}

/-- The number of units of the objects before one. -/
def unitsBefore (chunks : List Chunk) (i : ℕ) : ℕ :=
  ((chunks.take i).map fun chunk => chunk.units.length).sum

/-- The names of all objects in input order, each with the number of units before its object. -/
def entriesOf (chunks : List Chunk) (names : List (List NameEntry)) : List (NameEntry × ℕ) :=
  (names.zip ((List.range chunks.length).map (unitsBefore chunks))).flatMap fun object =>
    object.1.map fun entry => (entry, object.2)

/-- Kind and static bits, and the index of the unit. -/
def parts (value : ℕ) : ℕ × ℕ := (value / 2 ^ 24, value % 2 ^ 24)

/-- The kind and unit of every occurrence of a name: the unit of its object, shifted by the units of
the objects before. -/
def unitsOf (entries : List (NameEntry × ℕ)) (name : List UInt8) : List (ℕ × ℕ) :=
  (entries.filter fun x => x.1.name == name).map fun x =>
    (x.1.value / 2 ^ 24, x.1.value % 2 ^ 24 + x.2)

theorem firstUnits_eq {units : ℕ}
    (h : units + (chunks.map fun chunk => chunk.units.length).sum < 2 ^ 32) :
    firstUnits chunks units =
      (List.range chunks.length).map fun i => units + unitsBefore chunks i := by
  induction chunks generalizing units with
  | nil => rfl
  | cons chunk chunks ih =>
    rw [List.map_cons, List.sum_cons] at h
    have hnext : (units + toU32 chunk.units.length) % 2 ^ 32 = units + chunk.units.length := by
      rw [toU32, if_pos (by omega), Nat.mod_eq_of_lt (by omega)]
    rw [firstUnits, hnext, ih (by omega), List.length_cons, List.range_succ_eq_map, List.map_cons,
      List.map_map]
    congr 1
    refine List.map_congr_left fun i _ => ?_
    simp only [Function.comp_apply, unitsBefore, List.take_succ_cons, List.map_cons, List.sum_cons]
    omega

theorem occurrences_eq (hsize : index.size < 2 ^ 32) :
    occurrences index.chunks names = entriesOf index.chunks names := by
  have hsum := size_eq hsize
  rw [occurrences, entriesOf, firstUnits_eq (by omega)]
  simp only [Nat.zero_add]

/-- A value is shifted without a carry exactly if its unit fits 24 bits. -/
theorem parts_shift {value first : ℕ} (hvalue : value < 2 ^ 32) :
    parts ((value + first) % 2 ^ 32) = (value / 2 ^ 24, value % 2 ^ 24 + first) ↔
      value % 2 ^ 24 + first < 2 ^ 24 := by
  rw [parts, Prod.mk.injEq]
  omega

/-- The table of the section answers every lookup, with the kinds and units of all occurrences. -/
def LookupsOk (index : GdbIndex) (names : List (List NameEntry))
    (infoOffset address : ℕ → ℕ → Option ℕ) : Prop :=
  ∃ out, index.render infoOffset address = some (.ok out) ∧ out.length = index.size ∧
    ∀ name, 0 ∉ name →
      if ∃ x ∈ entriesOf index.chunks names, x.1.name = name then
        ∃ vector, Read.lookup out name = some (some vector) ∧
          vector.map parts = unitsOf (entriesOf index.chunks names) name ∧
            ∃! i, SlotOf out name i
      else Read.lookup out name = some none

theorem map_parts_eq_iff {entries : List (NameEntry × ℕ)} {name : List UInt8}
    (hvalue : ∀ x ∈ entries, x.1.value < 2 ^ 32) :
    (valuesOf entries name).map parts = unitsOf entries name ↔
      ∀ x ∈ entries, x.1.name = name → x.1.value % 2 ^ 24 + x.2 < 2 ^ 24 := by
  rw [valuesOf, unitsOf, List.map_map, List.map_inj_left]
  simp only [List.mem_filter, beq_iff_eq, and_imp, Function.comp_apply]
  exact forall₂_congr fun x hx => forall_congr' fun _ => parts_shift (hvalue x hx)

/-- **When the table answers every lookup.** -/
theorem lookupsOk_iff (hok : NamesOk names) (hbuild : build chunks names = .ok index)
    (hsize : index.size < 2 ^ 32) :
    LookupsOk index names infoOffset address ↔
      ∀ x ∈ entriesOf chunks names, x.1.value % 2 ^ 24 + x.2 < 2 ^ 24 := by
  obtain ⟨out, hrender, hlength, hlookup⟩ :=
    lookup_spec infoOffset address hok hbuild hsize
  have hchunks : index.chunks = chunks := by
    obtain ⟨created, -, hindex⟩ := bind_eq_ok.mp hbuild
    rw [← Except.ok.inj hindex]
  have hentries : occurrences chunks names = entriesOf chunks names := by
    rw [← hchunks]
    exact occurrences_eq hsize
  have hvalue : ∀ x ∈ entriesOf chunks names, x.1.value < 2 ^ 32 := by
    intro x hx
    obtain ⟨entries, hmem, he⟩ := exists_of_mem_occurrences (hentries ▸ hx)
    exact hok.value_lt entries hmem x.1 he
  rw [LookupsOk, hchunks]
  constructor
  · rintro ⟨out', hrender', -, hall⟩ x hx
    obtain rfl := Except.ok.inj (Option.some.inj (hrender.symm.trans hrender'))
    obtain ⟨entries, hmem, he⟩ := exists_of_mem_occurrences (hentries ▸ hx)
    have hname := hok.terminated entries hmem x.1 he
    have hoccurs : ∃ y ∈ entriesOf chunks names, y.1.name = x.1.name := ⟨x, hx, rfl⟩
    have hfound := hall x.1.name hname
    rw [if_pos hoccurs] at hfound
    obtain ⟨vector, hvector, hparts, -⟩ := hfound
    have hvalues := (hlookup x.1.name hname).1
    rw [valuesIn_of_occurs (hentries ▸ hoccurs), hvector, hentries] at hvalues
    obtain rfl := Option.some.inj (Option.some.inj hvalues)
    exact (map_parts_eq_iff hvalue).mp hparts x hx rfl
  · refine fun hfits => ⟨out, hrender, hlength, fun name hname => ?_⟩
    obtain ⟨hvalues, hunique⟩ := hlookup name hname
    split
    · rename_i hoccurs
      rw [valuesIn_of_occurs (hentries ▸ hoccurs), hentries] at hvalues
      exact ⟨_, hvalues, (map_parts_eq_iff hvalue).mpr fun x hx _ => hfits x hx,
        hunique (hentries ▸ hoccurs)⟩
    · rename_i hmissing
      rwa [valuesIn, hentries, if_neg hmissing] at hvalues

/-- **What GDB finds in the section (proved).** -/
theorem gdbIndex_lookups (hok : NamesOk names) (hbuild : build chunks names = .ok index)
    (hsize : index.size < 2 ^ 32) (infoOffset address : ℕ → ℕ → Option ℕ) :
    (∃ out, index.render infoOffset address = some (.ok out) ∧ out.length = index.size ∧
      ∀ name, 0 ∉ name → Read.lookup out name = some (valuesIn chunks names name) ∧
        ((∃ x ∈ occurrences chunks names, x.1.name = name) → ∃! i, SlotOf out name i)) ∧
    (LookupsOk index names infoOffset address ↔
      ∀ x ∈ entriesOf chunks names, x.1.value % 2 ^ 24 + x.2 < 2 ^ 24) :=
  ⟨lookup_spec infoOffset address hok hbuild hsize, lookupsOk_iff hok hbuild hsize⟩

/-- `main` and `x` in two objects, with a unit each. -/
def twoNames : List (List NameEntry) :=
  [[⟨[109, 97, 105, 110], gdbHash [109, 97, 105, 110], 0x30000000⟩],
    [⟨[120], gdbHash [120], 0x90000000⟩]]

/-- Objects with so many units. -/
def objectsOf (counts : List ℕ) : List Chunk :=
  counts.map fun count => ⟨0, some 1, List.replicate count (0, 16), []⟩

theorem twoNames_ok : NamesOk twoNames := ⟨by decide, by decide, by decide⟩

/-- What they are gathered to, when so many units come before the second object. -/
def twoSymbols (first : ℕ) : List Symbol :=
  [⟨[120], gdbHash [120], [0x90000000 + first], 0, 16⟩,
    ⟨[109, 97, 105, 110], gdbHash [109, 97, 105, 110], [0x30000000], 8, 18⟩]

theorem twoNames_found : ∃ index, build (objectsOf [1, 1]) twoNames = .ok index ∧
    LookupsOk index twoNames (fun _ _ => some 0) (fun _ _ => some 0) := by
  have hbuild : build (objectsOf [1, 1]) twoNames =
      .ok ⟨objectsOf [1, 1], twoSymbols 1, 1024, 23⟩ := by decide +kernel
  exact ⟨_, hbuild, (gdbIndex_lookups twoNames_ok hbuild (by decide) _ _).2.mpr (by decide)⟩

theorem firstUnits_objectsOf {n : ℕ} (hn : n < 2 ^ 32) :
    firstUnits (objectsOf [n, 1]) 0 = [0, n] := by
  have hsame : (0 + toU32 (List.replicate n (0, 16)).length) % 2 ^ 32 = n := by
    rw [List.length_replicate, toU32, if_pos hn, Nat.zero_add, Nat.mod_eq_of_lt hn]
  show 0 :: (0 + toU32 (List.replicate n ((0, 16) : ℕ × ℕ)).length) % 2 ^ 32 :: [] = _
  rw [hsame]

theorem size_objectsOf {n : ℕ} (hn : n < 2 ^ 25) (symbols : List Symbol) :
    (⟨objectsOf [n, 1], symbols, 1024, 23⟩ : GdbIndex).size < 2 ^ 32 := by
  simp only [GdbIndex.size, objectsOf, List.map_cons, List.map_nil, List.length_replicate,
    List.length_nil, List.sum_cons, List.sum_nil, saturatingAdd, saturatingMul, U64_MAX,
    HEADER_SIZE]
  omega

theorem mem_entriesOf_objectsOf (n : ℕ) :
    (⟨[120], gdbHash [120], 0x90000000⟩, n) ∈ entriesOf (objectsOf [n, 1]) twoNames := by
  simp [entriesOf, unitsBefore, objectsOf, twoNames, List.range_succ]

theorem not_lookupsOk_objectsOf {n : ℕ} {symbols : List Symbol} (hlow : 2 ^ 24 ≤ n)
    (hhigh : n < 2 ^ 25) (hbuild : build (objectsOf [n, 1]) twoNames =
      .ok ⟨objectsOf [n, 1], symbols, 1024, 23⟩) :
    ¬LookupsOk ⟨objectsOf [n, 1], symbols, 1024, 23⟩ twoNames (fun _ _ => some 0)
      (fun _ _ => some 0) := by
  intro h
  have hfits := (lookupsOk_iff twoNames_ok hbuild (size_objectsOf hhigh symbols)).mp h _
    (mem_entriesOf_objectsOf n)
  simp only at hfits
  omega

theorem createSymbols_objectsOf {n : ℕ} (hn : n = 2 ^ 24) :
    createSymbols (objectsOf [n, 1]) twoNames = .ok (twoSymbols (2 ^ 24), 23) := by
  rw [createSymbols, firstUnits_objectsOf (by omega), hn]
  decide +kernel

/-- With 2 ^ 24 units before its object, the unit of a name carries into its kind. -/
theorem twoNames_carry : NamesOk twoNames ∧ ∃ index,
    build (objectsOf [2 ^ 24, 1]) twoNames = .ok index ∧ index.size < 2 ^ 32 ∧
      ¬LookupsOk index twoNames (fun _ _ => some 0) (fun _ _ => some 0) := by
  refine ⟨twoNames_ok, ?_⟩
  generalize hn : 2 ^ 24 = n
  have hbuild : build (objectsOf [n, 1]) twoNames =
      .ok ⟨objectsOf [n, 1], twoSymbols (2 ^ 24), 1024, 23⟩ := by
    rw [build, createSymbols_objectsOf hn.symm]
    rfl
  have hhigh : n < 2 ^ 25 := by omega
  exact ⟨_, hbuild, size_objectsOf hhigh _, not_lookupsOk_objectsOf hn.le hhigh hbuild⟩

end Units

end Qld.Debug.Gdb
