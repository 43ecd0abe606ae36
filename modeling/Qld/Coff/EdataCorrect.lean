import Qld.Coff.EdataBytes

/-!
# The loader finds the exports

* `Correct` — the loader's lookups over a section find what was exported, and nothing else;
* `correct_render` — they do, for ordinals that are distinct and strings without NUL;
* `Meets` — what a plan is to give; `Representable` — when there is room for it;
* `plan_meets_iff` — the plan meets it exactly then.
-/

namespace Qld.Coff.Edata

open Qld.Lib

/-! ### Ordinals and slots -/

/-- Distinct ordinals from `ordinalBase` on. -/
structure Exports.Ok (x : Exports) : Prop where
  sorted : x.entries.Pairwise fun a b => compare a.name b.name = .lt
  nodup : (x.entries.map Export.ordinal).Nodup
  range : ∀ e ∈ x.entries, 1 ≤ e.ordinal ∧ e.ordinal ≤ U16_MAX
  base : x.ordinalBase = (x.entries.map Export.ordinal).min?.getD 1

theorem exists_min? {l : List ℕ} (h : l ≠ []) : ∃ m, l.min? = some m ∧ m ∈ l ∧ ∀ n ∈ l, m ≤ n := by
  obtain ⟨m, hm⟩ := Option.ne_none_iff_exists'.mp (mt List.min?_eq_none_iff.mp h)
  exact ⟨m, hm, List.min?_eq_some_iff.mp hm⟩

theorem exists_max? {l : List ℕ} (h : l ≠ []) : ∃ m, l.max? = some m ∧ m ∈ l ∧ ∀ n ∈ l, n ≤ m := by
  obtain ⟨m, hm⟩ := Option.ne_none_iff_exists'.mp (mt List.max?_eq_none_iff.mp h)
  exact ⟨m, hm, List.max?_eq_some_iff.mp hm⟩

namespace Exports.Ok

variable {x : Exports}

variable {e : Export}

theorem base_le (h : x.Ok) (he : e ∈ x.entries) : x.ordinalBase ≤ e.ordinal := by
  have hmem : e.ordinal ∈ x.entries.map Export.ordinal := List.mem_map_of_mem he
  obtain ⟨m, hm, -, hle⟩ := exists_min? (List.ne_nil_of_mem hmem)
  rw [h.base, hm, Option.getD_some]
  exact hle _ hmem

theorem base_mem (h : x.Ok) (hne : x.entries ≠ []) :
    ∃ e ∈ x.entries, e.ordinal = x.ordinalBase := by
  obtain ⟨m, hm, hmem, -⟩ := exists_min? (mt List.map_eq_nil_iff.mp hne)
  rw [h.base, hm, Option.getD_some]
  exact List.mem_map.mp hmem

theorem le_highest (he : e ∈ x.entries) : e.ordinal ≤ x.highestOrdinal := by
  have hmem : e.ordinal ∈ x.entries.map Export.ordinal := List.mem_map_of_mem he
  obtain ⟨m, hm, -, hle⟩ := exists_max? (List.ne_nil_of_mem hmem)
  rw [highestOrdinal, hm, Option.getD_some]
  exact hle _ hmem

theorem highest_le (h : x.Ok) (hne : x.entries ≠ []) : x.highestOrdinal ≤ U16_MAX := by
  obtain ⟨m, hm, hmem, -⟩ := exists_max? (mt List.map_eq_nil_iff.mp hne)
  rw [highestOrdinal, hm, Option.getD_some]
  obtain ⟨e, he, rfl⟩ := List.mem_map.mp hmem
  exact (h.range e he).2

theorem addressSlots_eq (h : x.Ok) (hne : x.entries ≠ []) :
    x.addressSlots = x.highestOrdinal - x.ordinalBase + 1 := by
  have := h.highest_le hne
  rw [addressSlots, if_neg (by simpa using hne), add32_eq]
  rw [U16_MAX] at this
  rw [U32_MAX]
  omega

theorem slotOf_eq (h : x.Ok) (he : e ∈ x.entries) :
    x.slotOf e.ordinal = e.ordinal - x.ordinalBase := by
  have hbase := h.base_le he
  have hrange := (h.range e he).2
  rw [U16_MAX] at hrange
  rw [slotOf, Nat.sub_add_comm hbase, Nat.add_mod_right, Nat.mod_eq_of_lt (by omega)]

theorem slotOf_lt (h : x.Ok) (he : e ∈ x.entries) :
    x.slotOf e.ordinal < x.addressSlots := by
  have hbase := h.base_le he
  have hhighest := le_highest he
  rw [h.slotOf_eq he, h.addressSlots_eq (List.ne_nil_of_mem he)]
  omega

theorem slotOf_inj (h : x.Ok) {f : Export} (he : e ∈ x.entries) (hf : f ∈ x.entries)
    (heq : x.slotOf e.ordinal = x.slotOf f.ordinal) : e.ordinal = f.ordinal := by
  have hbe := h.base_le he
  have hbf := h.base_le hf
  rw [h.slotOf_eq he, h.slotOf_eq hf] at heq
  omega

theorem nodup_slotOf (h : x.Ok) : (x.entries.map fun e => x.slotOf e.ordinal).Nodup := by
  have hnodup := h.nodup
  rw [List.Nodup, List.pairwise_map] at hnodup ⊢
  exact hnodup.imp_of_mem fun he hf hne heq => hne (h.slotOf_inj he hf heq)

theorem ordinalBase_le (h : x.Ok) (hne : x.entries ≠ []) : x.ordinalBase ≤ U16_MAX := by
  obtain ⟨e, he, heq⟩ := h.base_mem hne
  rw [← heq]
  exact (h.range e he).2

end Exports.Ok

/-! ### Lookups -/

/-- The value of an export's slot: the string of a forwarder, or the address of its symbol. -/
def Holds (byName : Name → Option UInt32) (rva : ℕ) (data : List UInt8) (e : Export) (value : ℕ) :
    Prop :=
  match e.forwarder, e.symbol with
  | some forwarder, _ => rva ≤ value ∧ value < rva + data.length ∧
    Read.cString data (value - rva) = some forwarder
  | none, some symbol => value = (byName symbol).elim 0 UInt32.toNat
  | none, none => value = 0

/-- The loader's lookups find what was exported, and nothing else. -/
structure Correct (x : Exports) (byName : Name → Option UInt32) (rva : ℕ) (data : List UInt8) : Prop where
  length : data.length = x.size
  sorted : ∀ i j, i < j → j < x.named.length → ∃ a b, Read.nameAt data rva i = some a ∧
    Read.nameAt data rva j = some b ∧ compare a b = .lt
  found : ∀ e ∈ x.entries, ∃ value, Read.lookupOrdinal data rva e.ordinal = some value ∧
    (e.noname = false → Read.lookupName data rva e.name = some value) ∧
    Holds byName rva data e value
  absent : ∀ name, (∀ e ∈ x.named, e.name ≠ name) → Read.lookupName data rva name = none
  unused : ∀ ordinal, x.ordinalBase ≤ ordinal → ordinal < x.ordinalBase + x.addressSlots →
    (∀ e ∈ x.entries, e.ordinal ≠ ordinal) → Read.lookupOrdinal data rva ordinal = some 0

section Lookup

variable {x : Exports} {byName : Name → Option UInt32} {rva : ℕ} {data : List UInt8}

theorem slot_eq (h : x.Layout byName rva data) {index : ℕ} (hlt : index < x.addressSlots) :
    Read.slot data rva index = readLe 4 data (40 + index * 4) := by
  simp only [Read.slot, Read.word, h.slots, h.slotTable, Option.bind_eq_bind, Option.bind_some,
    if_pos hlt]
  rw [Nat.add_sub_cancel_left]

theorem lookupOrdinal_eq (h : x.Layout byName rva data) {ordinal : ℕ}
    (hle : x.ordinalBase ≤ ordinal) (hlt : ordinal < x.ordinalBase + x.addressSlots) :
    Read.lookupOrdinal data rva ordinal = readLe 4 data (40 + (ordinal - x.ordinalBase) * 4) := by
  simp only [Read.lookupOrdinal, Read.word, h.base, Option.bind_eq_bind, Option.bind_some,
    if_neg (Nat.not_lt.mpr hle)]
  exact slot_eq h (by omega)

theorem nameAt_eq (h : x.Layout byName rva data) (hnul : ∀ e ∈ x.named, 0 ∉ e.name) {i : ℕ}
    (hi : i < x.named.length) : Read.nameAt data rva i = (x.named.map Export.name)[i]? := by
  have hget := List.getElem?_eq_getElem hi
  obtain ⟨-, pos, hpointer, hstands⟩ := h.name i _ hget
  simp only [Read.nameAt, Read.word, h.nameTable, Option.bind_eq_bind, Option.bind_some]
  rw [show rva + 40 + x.addressSlots * 4 - rva = 40 + x.addressSlots * 4 by omega, hpointer,
    Option.bind_some, Nat.add_sub_cancel_left, List.getElem?_map, hget, Option.map_some]
  exact Read.cString_of_standsAt hstands (hnul _ (List.getElem_mem hi))

theorem sorted_named (h : x.Ok) :
    (x.named.map Export.name).Pairwise fun a b => compare a b = .lt := by
  rw [List.pairwise_map]
  exact h.sorted.sublist List.filter_sublist

/-- **The lookup of a name finds the slot of its export.** -/
theorem lookupName_eq (h : x.Layout byName rva data) (hok : x.Ok)
    (hnul : ∀ e ∈ x.named, 0 ∉ e.name) {e : Export} (he : e ∈ x.named) :
    Read.lookupName data rva e.name = readLe 4 data (40 + x.slotOf e.ordinal * 4) := by
  obtain ⟨i, hi, rfl⟩ := List.mem_iff_getElem.mp he
  have hget := List.getElem?_eq_getElem hi
  have hlen : (x.named.map Export.name).length = x.named.length := List.length_map _
  have hsearch : searchEq (Read.nameAt data rva) x.named[i].name 0 x.named.length =
      some (some i) := by
    refine searchEq_eq_some (fun k hk => nameAt_eq h hnul (hlen ▸ hk)) (sorted_named hok) ?_
      (Nat.zero_le _) hi hlen.ge
    rw [List.getElem?_map, hget, Option.map_some]
  simp only [Read.lookupName, Read.word, h.names, h.ordinalTable, hsearch, Option.bind_eq_bind,
    Option.bind_some]
  rw [show rva + 40 + x.addressSlots * 4 + x.named.length * 4 - rva + i * 2 =
    40 + x.addressSlots * 4 + x.named.length * 4 + i * 2 by omega, (h.name i _ hget).1,
    Option.bind_some]
  exact slot_eq h (hok.slotOf_lt (List.mem_of_mem_filter he))

/-- **A name that is not exported is not found.** -/
theorem lookupName_eq_none (h : x.Layout byName rva data) (hnul : ∀ e ∈ x.named, 0 ∉ e.name)
    {name : Name} (hname : ∀ e ∈ x.named, e.name ≠ name) : Read.lookupName data rva name = none := by
  have hlen : (x.named.map Export.name).length = x.named.length := List.length_map _
  have hnot : name ∉ x.named.map Export.name := fun hmem => by
    obtain ⟨e, he, heq⟩ := List.mem_map.mp hmem
    exact hname e he heq
  have hsearch : searchEq (Read.nameAt data rva) name 0 x.named.length = some none :=
    searchEq_eq_none (fun k hk => nameAt_eq h hnul (hlen ▸ hk)) hnot hlen.ge
  simp only [Read.lookupName, Read.word, h.names, hsearch, Option.bind_eq_bind, Option.bind_some]

/-- **The loader finds the exports.** -/
theorem correct_of_layout (h : x.Layout byName rva data) (hok : x.Ok) (hsize : x.size = x.bytes)
    (hnul : ∀ e ∈ x.named, 0 ∉ e.name)
    (hforwarder : ∀ e ∈ x.entries, ∀ f, e.forwarder = some f → 0 ∉ f) : Correct x byName rva data := by
  refine ⟨by rw [h.length, hsize], fun i j hij hj => ?_, fun e he => ?_,
    fun name hname => lookupName_eq_none h hnul hname, fun ordinal hle hlt hunused => ?_⟩
  · have hlen : (x.named.map Export.name).length = x.named.length := List.length_map _
    refine ⟨_, _, (nameAt_eq h hnul (hij.trans hj)).trans
      (List.getElem?_eq_getElem (hlen ▸ hij.trans hj)),
      (nameAt_eq h hnul hj).trans (List.getElem?_eq_getElem (hlen ▸ hj)), ?_⟩
    exact List.pairwise_iff_getElem.mp (sorted_named hok) i j _ _ hij
  · obtain ⟨value, hvalue, hholds⟩ := h.value e he
    have hlt := hok.slotOf_lt he
    have hslot := hok.slotOf_eq he
    have hbase := hok.base_le he
    refine ⟨value, ?_, fun hnamed => ?_, ?_⟩
    · rw [lookupOrdinal_eq h hbase (by omega), ← hslot, hvalue]
    · rw [lookupName_eq h hok hnul (List.mem_filter.mpr ⟨he, by simp [hnamed]⟩), hvalue]
    · rw [Holds]
      cases hf : e.forwarder with
      | some f =>
        rw [hf] at hholds
        obtain ⟨pos, hstands, rfl⟩ := hholds
        have hle := hstands.le_length (by rw [length_terminated]; omega)
        rw [length_terminated] at hle
        refine ⟨Nat.le_add_right _ _, by omega, ?_⟩
        rw [Nat.add_sub_cancel_left]
        exact Read.cString_of_standsAt hstands (hforwarder e he f hf)
      | none =>
        rw [hf] at hholds
        cases hs : e.symbol with
        | none => rwa [hs] at hholds
        | some symbol => rwa [hs] at hholds
  · rw [lookupOrdinal_eq h hle hlt]
    refine h.unused _ (by omega) fun e he heq => ?_
    rw [hok.slotOf_eq he] at heq
    have := hok.base_le he
    exact hunused e he (by omega)

end Lookup

/-! ### The plan -/

/-- What a plan is to give: an error when there are more exports than ordinals; otherwise distinct
ordinals, and a section in which the loader finds the exports, wherever it fits. -/
def Meets (requests : List Request) (symbols : List Symbol) (pe : Options) (dllName : Name) : Prop :=
  ∃ x diagnostics, plan requests symbols pe dllName = some (x, diagnostics) ∧
    ((U16_MAX < x.entries.length ∧ ∃ symbol, Diagnostic.error symbol ∈ diagnostics) ∨
      ((∀ e ∈ x.entries, 1 ≤ e.ordinal ∧ e.ordinal ≤ U16_MAX) ∧
        (x.entries.map Export.ordinal).Nodup ∧
        ∀ byName rva, rva + x.size ≤ U32_MAX → Correct x byName rva (x.render byName rva).1))

/-- The size of the section for some exports. -/
def tableBytes (l : List Export) (dllName : Name) : ℕ :=
  40 + ((ordinals l).max?.getD 0 - (ordinals l).min?.getD 0 + 1) * 4 +
    (l.filter fun e => !e.noname).length * 4 + (l.filter fun e => !e.noname).length * 2 +
    (terminated dllName ++ (l.filterMap Export.forwarder).flatMap terminated ++
      ((l.filter fun e => !e.noname).map Export.name).flatMap terminated).length

/-- There are ordinals for all exports, their strings have no NUL, and the section is below 4 GiB. -/
structure Representable (l : List Export) (dllName : Name) : Prop where
  count : l.length ≤ U16_MAX
  names : ∀ e ∈ l, e.noname = false → 0 ∉ e.name
  forwarders : ∀ e ∈ l, ∀ f, e.forwarder = some f → 0 ∉ f
  bytes : l ≠ [] → tableBytes l dllName ≤ U32_MAX

/-- What does not depend on ordinals is the same after assignment. -/
theorem map_filter_place {β : Type*} {p : Export → Bool} {f : Export → β}
    (hp : ∀ e n, p { e with ordinal := n } = p e) (hf : ∀ e n, f { e with ordinal := n } = f e)
    (l : List Export) (fresh : List ℕ) :
    ((place l fresh).filter p).map f = (l.filter p).map f := by
  have hpair := map_place (f := fun e => (p e, f e)) (fun e n => by rw [hp, hf]) l fresh
  have hsplit : ∀ l : List Export,
      (l.filter p).map f = ((l.map fun e => (p e, f e)).filter Prod.fst).map Prod.snd := by
    intro l
    rw [List.filter_map, List.map_map]
    rfl
  rw [hsplit, hsplit, hpair]

theorem filterMap_place {β : Type*} {f : Export → Option β}
    (hf : ∀ e n, f { e with ordinal := n } = f e) (l : List Export) (fresh : List ℕ) :
    (place l fresh).filterMap f = l.filterMap f := by
  have hmap := map_place hf l fresh
  have hid : ∀ l : List Export, l.filterMap f = (l.map f).filterMap id := by
    intro l
    rw [List.filterMap_map]
    rfl
  rw [hid, hid, hmap]

theorem max?_getD_of_perm {l l' : List ℕ} (h : l.Perm l') (d : ℕ) :
    l.max?.getD d = l'.max?.getD d ∧ l.min?.getD d = l'.min?.getD d := by
  rcases eq_or_ne l [] with rfl | hne
  · rw [List.nil_perm.mp h]
    exact ⟨rfl, rfl⟩
  · obtain ⟨m, hm, hmem, hle⟩ := exists_max? hne
    obtain ⟨k, hk, hkmem, hkle⟩ := exists_min? hne
    rw [hm, hk, List.max?_eq_some_iff.mpr ⟨h.mem_iff.mp hmem, fun n hn => hle n (h.mem_iff.mpr hn)⟩,
      List.min?_eq_some_iff.mpr ⟨h.mem_iff.mp hkmem, fun n hn => hkle n (h.mem_iff.mpr hn)⟩]
    exact ⟨rfl, rfl⟩

/-- The table with the lowest free ordinals. -/
def assigned (l : List Export) (dllName : Name) : Exports :=
  ⟨place l (freeFrom (usedOrdinals l) 1), dllName,
    ((place l (freeFrom (usedOrdinals l) 1)).map Export.ordinal).min?.getD 1⟩

section Assigned

variable {l : List Export} (dllName : Name)

theorem mem_assigned {e : Export} (he : e ∈ l) : ∃ e' ∈ (assigned l dllName).entries,
    e'.name = e.name ∧ e'.noname = e.noname ∧ e'.forwarder = e.forwarder := by
  have hmap := map_place (f := fun e => (e.name, e.noname, e.forwarder)) (fun _ _ => rfl) l
    (freeFrom (usedOrdinals l) 1)
  have hmem : (e.name, e.noname, e.forwarder) ∈
      (place l (freeFrom (usedOrdinals l) 1)).map fun e => (e.name, e.noname, e.forwarder) :=
    hmap ▸ List.mem_map_of_mem (f := fun e : Export => (e.name, e.noname, e.forwarder)) he
  obtain ⟨e', he', heq⟩ := List.mem_map.mp hmem
  simp only [Prod.mk.injEq] at heq
  exact ⟨e', he', heq⟩

theorem mem_of_mem_assigned {e' : Export} (he' : e' ∈ (assigned l dllName).entries) : ∃ e ∈ l,
    e.name = e'.name ∧ e.noname = e'.noname ∧ e.forwarder = e'.forwarder := by
  have hmap := map_place (f := fun e => (e.name, e.noname, e.forwarder)) (fun _ _ => rfl) l
    (freeFrom (usedOrdinals l) 1)
  have hmem : (e'.name, e'.noname, e'.forwarder) ∈
      l.map fun e => (e.name, e.noname, e.forwarder) :=
    hmap ▸ List.mem_map_of_mem (f := fun e : Export => (e.name, e.noname, e.forwarder)) he'
  obtain ⟨e, he, heq⟩ := List.mem_map.mp hmem
  simp only [Prod.mk.injEq] at heq
  exact ⟨e, he, heq⟩

theorem assigned_entries_eq_nil : (assigned l dllName).entries = [] ↔ l = [] := by
  have hlen := congrArg List.length (map_place (f := Export.name) (fun _ _ => rfl) l
    (freeFrom (usedOrdinals l) 1))
  rw [List.length_map, List.length_map] at hlen
  rw [← List.length_eq_zero_iff, ← List.length_eq_zero_iff, ← hlen]
  rfl

variable (hsorted : l.Pairwise fun a b => compare a.name b.name = .lt)
  (hnodup : (usedOrdinals l).Nodup) (hused : ∀ n ∈ usedOrdinals l, n < 2 ^ 16)
  (hlen : l.length ≤ U16_MAX)

include hsorted hnodup hused hlen

theorem assigned_ok : (assigned l dllName).Ok := by
  obtain ⟨-, hperm, hdistinct, hrange⟩ := assignOrdinals_eq hnodup hused hlen
  refine ⟨?_, hperm.nodup_iff.mpr hdistinct, fun e he => ?_, rfl⟩
  · rw [← List.pairwise_map (f := Export.name) (R := fun a b => compare a b = .lt)] at hsorted ⊢
    rwa [assigned, map_place fun _ _ => rfl]
  · exact hrange _ (hperm.mem_iff.mp (List.mem_map_of_mem he))

theorem bytes_assigned (hne : l ≠ []) : (assigned l dllName).bytes = tableBytes l dllName := by
  have hok := assigned_ok dllName hsorted hnodup hused hlen
  have hne' := mt (assigned_entries_eq_nil dllName).mp hne
  obtain ⟨-, hperm, -⟩ := assignOrdinals_eq hnodup hused hlen
  have hnamed : (assigned l dllName).named.map Export.name =
      (l.filter fun e => !e.noname).map Export.name := map_filter_place (fun _ _ => rfl) (fun _ _ => rfl) _ _
  have hnamedlen := congrArg List.length hnamed
  rw [List.length_map, List.length_map] at hnamedlen
  have hforwarders : (assigned l dllName).forwarders = l.filterMap Export.forwarder :=
    filterMap_place (fun _ _ => rfl) _ _
  have hslots : (assigned l dllName).addressSlots =
      (ordinals l).max?.getD 0 - (ordinals l).min?.getD 0 + 1 := by
    obtain ⟨m, hm, -⟩ := exists_max? (mt List.map_eq_nil_iff.mp hne')
    obtain ⟨k, hk, -⟩ := exists_min? (mt List.map_eq_nil_iff.mp hne')
    obtain ⟨hmax, hmin⟩ := max?_getD_of_perm hperm 0
    rw [hok.addressSlots_eq hne', Exports.highestOrdinal, hok.base, ← hmax, ← hmin]
    show (_ : ℕ) = ((assigned l dllName).entries.map Export.ordinal).max?.getD 0 -
      ((assigned l dllName).entries.map Export.ordinal).min?.getD 0 + 1
    rw [hm, hk]
    rfl
  rw [Exports.bytes, Exports.strings, hnamed, hnamedlen, hforwarders, hslots, tableBytes]
  rfl

end Assigned

/-! ### When the plan meets what it is to give -/

theorem length_of_assignFrom {used : List ℕ} {next : ℕ} {l m : List Export}
    (h : assignFrom used next l = some m) : m.length = l.length := by
  induction l generalizing next m with
  | nil =>
    obtain rfl := Option.some.inj h
    rfl
  | cons e l ih =>
    rw [assignFrom] at h
    split at h
    · obtain ⟨rest, hrest, h⟩ := Option.bind_eq_some_iff.mp h
      obtain rfl := Option.some.inj h
      rw [List.length_cons, List.length_cons, ih hrest]
    · obtain ⟨free, -, h⟩ := Option.bind_eq_some_iff.mp h
      obtain ⟨rest, hrest, h⟩ := Option.bind_eq_some_iff.mp h
      obtain rfl := Option.some.inj h
      rw [List.length_cons, List.length_cons, ih hrest]

theorem length_le_of_nodup {l : List ℕ} (hnodup : l.Nodup) (h : ∀ n ∈ l, 1 ≤ n ∧ n ≤ U16_MAX) :
    l.length ≤ U16_MAX := by
  have hsub : l ⊆ List.range' 1 U16_MAX := fun n hn => by
    obtain ⟨hlo, hhi⟩ := h n hn
    exact List.mem_range'_1.mpr ⟨hlo, by omega⟩
  calc l.length ≤ (List.range' 1 U16_MAX).length := (List.subperm_of_subset hnodup hsub).length_le
    _ = U16_MAX := List.length_range'

theorem plan_eq_some {requests : List Request} {symbols : List Symbol} {pe : Options} {dllName : Name}
    {x : Exports} {diagnostics : List Diagnostic}
    (h : plan requests symbols pe dllName = some (x, diagnostics)) :
    ∃ m, assignOrdinals (entries requests symbols pe) = some m ∧
      x = ⟨m, dllName, (m.map Export.ordinal).min?.getD 1⟩ ∧
      diagnostics = (collect requests symbols pe).diagnostics := by
  obtain ⟨m, hm, h⟩ := Option.bind_eq_some_iff.mp h
  obtain ⟨rfl, rfl⟩ := Prod.mk.inj (Option.some.inj h)
  exact ⟨m, hm, rfl, rfl⟩

theorem zero_notMem_of_lookupName {data : List UInt8} {rva value : ℕ} {name : Name}
    (h : Read.lookupName data rva name = some value) : 0 ∉ name := by
  obtain ⟨count, -, h⟩ := Option.bind_eq_some_iff.mp h
  obtain ⟨found, hsearch, h⟩ := Option.bind_eq_some_iff.mp h
  cases found with
  | none => exact nomatch h
  | some index =>
    obtain ⟨table, -, hname⟩ := Option.bind_eq_some_iff.mp (key_of_searchEq hsearch)
    obtain ⟨pointer, -, hname⟩ := Option.bind_eq_some_iff.mp hname
    exact Read.zero_notMem_of_cString hname

section Plan

variable {requests : List Request} {symbols : List Symbol} {pe : Options} {dllName : Name}

/-- **A plan that meets it had room for it.** -/
theorem representable_of_meets (hordinals : (requests.filterMap Request.ordinal).Nodup)
    (h : Meets requests symbols pe dllName) :
    Representable (entries requests symbols pe) dllName := by
  obtain ⟨x, diagnostics, hplan, hmeets⟩ := h
  obtain ⟨m, hm, rfl, rfl⟩ := plan_eq_some hplan
  rcases hmeets with ⟨-, symbol, hsymbol⟩ | ⟨hrange, hnodup, hcorrect⟩
  · obtain ⟨warnings, hwarnings⟩ := diagnostics_collect requests symbols pe
    rw [hwarnings] at hsymbol
    obtain ⟨w, -, hw⟩ := List.mem_map.mp hsymbol
    exact nomatch hw
  have hcount : (entries requests symbols pe).length ≤ U16_MAX := by
    rw [← length_of_assignFrom hm, ← List.length_map Export.ordinal]
    refine length_le_of_nodup hnodup fun n hn => ?_
    obtain ⟨e, he, rfl⟩ := List.mem_map.mp hn
    exact hrange e he
  have hsorted := sorted_entries requests symbols pe
  have hused := nodup_usedOrdinals symbols pe hordinals
  have hlt : ∀ n ∈ usedOrdinals (entries requests symbols pe), n < 2 ^ 16 := fun n hn =>
    usedOrdinals_lt hn
  obtain rfl := Option.some.inj (hm.symm.trans (assignOrdinals_eq hused hlt hcount).1)
  change ∀ byName rva, rva + (assigned (entries requests symbols pe) dllName).size ≤ U32_MAX →
    Correct (assigned (entries requests symbols pe) dllName) byName rva
      ((assigned (entries requests symbols pe) dllName).render byName rva).1 at hcorrect
  have hzero := hcorrect (fun _ => none) 0 (by rw [Nat.zero_add]; exact Exports.size_le _)
  refine ⟨hcount, fun e he hnamed => ?_, fun e he f hf => ?_, fun hne => ?_⟩
  · obtain ⟨e', he', hname, hnoname, -⟩ := mem_assigned dllName he
    obtain ⟨value, -, hlookup, -⟩ := hzero.found e' he'
    rw [← hname]
    exact zero_notMem_of_lookupName (hlookup (hnoname.trans hnamed))
  · obtain ⟨e', he', -, -, hforwarder⟩ := mem_assigned dllName he
    obtain ⟨value, -, -, hholds⟩ := hzero.found e' he'
    rw [Holds, hforwarder, hf] at hholds
    exact Read.zero_notMem_of_cString hholds.2.2
  · have hne' := mt (assigned_entries_eq_nil dllName).mp hne
    rw [← bytes_assigned dllName hsorted hused hlt hcount hne,
      ← Exports.length_render _ hne' (fun _ => none) 0, hzero.length]
    exact Exports.size_le _

theorem correct_of_empty {x : Exports} (hnil : x.entries = []) (byName : Name → Option UInt32)
    (rva : ℕ) : Correct x byName rva (x.render byName rva).1 := by
  have hnamed : x.named = [] := by rw [Exports.named, hnil, List.filter_nil]
  have hrender : (x.render byName rva).1 = [] := by rw [Exports.render, hnil]; rfl
  have hslots : x.addressSlots = 0 := by rw [Exports.addressSlots, hnil]; rfl
  rw [hrender]
  refine ⟨?_, fun i j _ hj => ?_, fun e he => ?_, fun name _ => rfl, fun ordinal _ hlt => ?_⟩
  · rw [Exports.size, hnil]
    rfl
  · rw [hnamed] at hj
    exact absurd hj (Nat.not_lt_zero _)
  · rw [hnil] at he
    exact absurd he List.not_mem_nil
  · rw [hslots] at hlt
    omega

/-- **A plan with room for it meets it.** -/
theorem meets_of_representable (hordinals : (requests.filterMap Request.ordinal).Nodup)
    (h : Representable (entries requests symbols pe) dllName) :
    Meets requests symbols pe dllName := by
  have hsorted := sorted_entries requests symbols pe
  have hused := nodup_usedOrdinals symbols pe hordinals
  have hlt : ∀ n ∈ usedOrdinals (entries requests symbols pe), n < 2 ^ 16 := fun n hn =>
    usedOrdinals_lt hn
  obtain ⟨hassign, -⟩ := assignOrdinals_eq hused hlt h.count
  have hok := assigned_ok dllName hsorted hused hlt h.count
  refine ⟨assigned (entries requests symbols pe) dllName, (collect requests symbols pe).diagnostics,
    ?_, .inr ⟨hok.range, hok.nodup, fun byName rva hfit => ?_⟩⟩
  · rw [plan, hassign]
    rfl
  rcases eq_or_ne (entries requests symbols pe) [] with hnil | hne
  · exact correct_of_empty ((assigned_entries_eq_nil dllName).mpr hnil) byName rva
  · have hne' := mt (assigned_entries_eq_nil dllName).mp hne
    have hbytes := bytes_assigned dllName hsorted hused hlt h.count hne
    have hsize := Exports.size_eq (assigned (entries requests symbols pe) dllName) hne'
      (hbytes ▸ h.bytes hne)
    rw [hsize] at hfit
    refine correct_of_layout (Exports.layout_render _ hne' byName hfit (hok.ordinalBase_le hne')
      (fun e he => hok.slotOf_lt he) hok.nodup_slotOf) hok hsize (fun e he => ?_) fun e he f hf => ?_
    · obtain ⟨he, hnamed⟩ := List.mem_filter.mp he
      obtain ⟨e', he', hname, hnoname, -⟩ := mem_of_mem_assigned dllName he
      rw [← hname]
      exact h.names e' he' (by simpa [hnoname] using hnamed)
    · obtain ⟨e', he', -, -, hforwarder⟩ := mem_of_mem_assigned dllName he
      exact h.forwarders e' he' f (hforwarder.trans hf)

/-- **The loader finds the exports exactly when there is room for them (proved).** -/
theorem plan_meets_iff (hordinals : (requests.filterMap Request.ordinal).Nodup) :
    Meets requests symbols pe dllName ↔ Representable (entries requests symbols pe) dllName :=
  ⟨representable_of_meets hordinals, meets_of_representable hordinals⟩

end Plan

/-! ### Samples -/

/-- A DLL for a machine without decorated names. -/
def sampleOptions : Options := ⟨false, true, false, false, none, false, false, []⟩

/-- An export by ordinal of another symbol, one without an ordinal, and a forwarded one. -/
def sampleRequests : List Request :=
  [⟨ascii "f", some (ascii "i"), none, some 5, true, false, false⟩,
    ⟨ascii "g", none, none, none, false, false, false⟩,
    ⟨ascii "h", none, some (ascii "b.k"), none, false, false, false⟩]

def sampleExports : List Export :=
  [⟨ascii "f", some (ascii "i"), none, 5, true, false, false⟩,
    ⟨ascii "g", some (ascii "g"), none, 0, false, false, false⟩,
    ⟨ascii "h", none, some (ascii "b.k"), 0, false, false, false⟩]

theorem entries_sample : entries sampleRequests [] sampleOptions = sampleExports := by
  have hgf : ascii "g" ≠ ascii "f" := by decide
  have hhg : ascii "h" ≠ ascii "g" := by decide
  show dedupName (List.mergeSort sampleExports nameLe) = _
  rw [List.mergeSort_of_pairwise (by decide)]
  simp [sampleExports, dedupName, hgf, hhg]

theorem plan_meets_sample :
    (sampleRequests.filterMap Request.ordinal).Nodup ∧
      Meets sampleRequests [] sampleOptions (ascii "a.dll") := by
  have hnodup : (sampleRequests.filterMap Request.ordinal).Nodup := by decide
  refine ⟨hnodup, (plan_meets_iff hnodup).mpr ?_⟩
  rw [entries_sample]
  exact ⟨by decide, by decide, by decide, by decide⟩

/-- Exports of some names. -/
def requestsOf (names : List Name) : List Request :=
  names.map fun name => ⟨name, none, none, none, false, false, false⟩

theorem collect_requestsOf {names : List Name} (hne : names ≠ []) :
    (collect (requestsOf names) [] sampleOptions).entries.map Export.name = names := by
  have hfold : ∀ (names : List Name) (state : Collected),
      ((requestsOf names).foldl (collectRequest [] sampleOptions) state).entries.map Export.name =
        state.entries.map Export.name ++ names := by
    intro names
    induction names with
    | nil => exact fun state => (List.append_nil _).symm
    | cons name names ih =>
      intro state
      refine (ih _).trans ?_
      show (state.entries ++ [] ++ [_]).map Export.name ++ names = _
      rw [List.append_nil, List.map_append, List.append_assoc]
      rfl
  have hall := hfold names ⟨[], false, []⟩
  have hnone : exportAll sampleOptions
      (collectRequests [] sampleOptions (requestsOf names)).entries = false := by
    cases hentries : (collectRequests [] sampleOptions (requestsOf names)).entries with
    | nil =>
      rw [collectRequests] at hentries
      rw [hentries] at hall
      exact absurd hall.symm hne
    | cons e l => rfl
  rw [collect, hnone, if_neg Bool.false_ne_true]
  exact hall

theorem dedupName_eq_self {l : List Export} (h : (l.map Export.name).Nodup) : dedupName l = l := by
  fun_induction dedupName l with
  | case1 => rfl
  | case2 e => rfl
  | case3 e f rest heq ih =>
    rw [List.map_cons, List.map_cons, heq] at h
    exact absurd List.mem_cons_self (List.nodup_cons.mp h).1
  | case4 e f rest hne ih => rw [ih (List.nodup_cons.mp h).2]

theorem length_entries_requestsOf {names : List Name} (hne : names ≠ []) (h : names.Nodup) :
    (entries (requestsOf names) [] sampleOptions).length = names.length := by
  have hcollect := collect_requestsOf hne
  have hperm := List.mergeSort_perm (collect (requestsOf names) [] sampleOptions).entries nameLe
  have hnodup := (hperm.map Export.name).nodup_iff.mpr (hcollect.symm ▸ h)
  rw [entries, dedupName_eq_self hnodup, hperm.length_eq, ← List.length_map Export.name, hcollect]

/-- Names of three bytes. -/
def manyNames : List Name := (List.range 65536).map fun i =>
  [UInt8.ofNat (1 + i % 128), UInt8.ofNat (1 + i / 128 % 128), UInt8.ofNat (1 + i / 16384)]

theorem nodup_manyNames : manyNames.Nodup := by
  refine List.Nodup.map_on (fun i hi j hj heq => ?_) List.nodup_range
  rw [List.mem_range] at hi hj
  have hbyte : ∀ a b : ℕ, a < 128 → b < 128 → UInt8.ofNat (1 + a) = UInt8.ofNat (1 + b) → a = b := by
    intro a b ha hb hab
    have := congrArg UInt8.toNat hab
    rw [UInt8.toNat_ofNat', UInt8.toNat_ofNat', Nat.mod_eq_of_lt (by omega),
      Nat.mod_eq_of_lt (by omega)] at this
    omega
  simp only [List.cons.injEq, and_true] at heq
  obtain ⟨hlow, hmid, hhigh⟩ := heq
  have := hbyte _ _ (by omega) (by omega) hlow
  have := hbyte _ _ (by omega) (by omega) hmid
  have := hbyte _ _ (by omega) (by omega) hhigh
  omega

/-- One export more than there are ordinals: two get the same one, and nothing is reported. -/
theorem plan_too_many :
    ((requestsOf manyNames).filterMap Request.ordinal).Nodup ∧
      ¬ Meets (requestsOf manyNames) [] sampleOptions (ascii "a.dll") := by
  have hordinals : (requestsOf manyNames).filterMap Request.ordinal = [] :=
    List.filterMap_eq_nil_iff.mpr fun r hr => by
      obtain ⟨name, -, rfl⟩ := List.mem_map.mp hr
      rfl
  have hlen : manyNames.length = 65536 := by rw [manyNames, List.length_map, List.length_range]
  have hne : manyNames ≠ [] := List.ne_nil_of_length_pos (by omega)
  rw [hordinals]
  refine ⟨.nil, fun hmeets => ?_⟩
  have hcount := (representable_of_meets (hordinals ▸ .nil) hmeets).count
  rw [length_entries_requestsOf hne nodup_manyNames, hlen, U16_MAX] at hcount
  omega

end Qld.Coff.Edata
