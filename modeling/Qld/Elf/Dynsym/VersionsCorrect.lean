import Qld.Elf.Dynsym.PlanTotal

/-!
# The version tables of a plan

* `VersionTables` — what the three tables have to say together;
* `Planned`, `planned_of_ok` — the parts of a plan that succeeds;
* `verneed_walk`, `verdef_walk` — what the walks over the record tables enumerate;
* `versionTables_iff` — the tables are consistent if and only if there are few enough
  versions.
-/

namespace Qld.Elf.Dynsym

open Qld.Lib

/-! ### What the tables say -/

/-- The bit of `.gnu.version` that is no part of an index. -/
def VERSYM_HIDDEN : ℕ := 0x8000

/-- The records that a walk over `.gnu.version_r` enumerates: as many as there should be. -/
def DynamicPlan.verneedRecords (kind : ElfKind) (plan : DynamicPlan) : Option (List Verneed) :=
  if plan.verneed_count = 0 then some []
  else walkLinks (readVerneed kind plan.verneed plan.dynstr) plan.verneed_count 0

/-- The records that a walk over `.gnu.version_d` enumerates. -/
def DynamicPlan.verdefRecords (kind : ElfKind) (plan : DynamicPlan) : Option (List Verdef) :=
  if plan.verdef_count = 0 then some []
  else walkLinks (readVerdef kind plan.verdef plan.dynstr) plan.verdef_count 0

/-- All version indices of the records. -/
def versionIndices (needs : List Verneed) (defs : List Verdef) : List ℕ :=
  defs.map Verdef.index ++ needs.flatMap fun need => need.aux.map Vernaux.other

namespace PlanInput

variable (input : PlanInput)

/-- What the three tables say together, when the walks enumerate `needs` and `defs` and the
libraries are those of `files`. -/
structure VersionTables (plan : DynamicPlan) (needs : List Verneed) (defs : List Verdef)
    (files : List ℕ) : Prop where
  /-- The entries are the chosen symbols, and a symbol for each version. -/
  entries : plan.entries.Perm (input.imports.map .symbol ++ (input.exports.map .symbol ++
    (List.range input.defs.length).map fun index => .version (index + 2)))
  needs_walk : plan.verneedRecords input.kind = some needs
  needs_count : needs.length = plan.verneed_count
  /-- There is one record for each file of a needed version, which has its versions. -/
  files_nodup : files.Nodup
  mem_files : ∀ file, file ∈ files ↔ ∃ version, ⟨file, version⟩ ∈ input.neededPairs
  records : List.Forall₂ (fun file need => need.file = input.needed_name file ∧
    need.count = need.aux.length ∧ (need.aux.map Vernaux.name).Nodup ∧
    ∀ version, version ∈ need.aux.map Vernaux.name ↔ ⟨file, version⟩ ∈ input.neededPairs)
    files needs
  defs_walk : plan.verdefRecords input.kind = some defs
  defs_count : defs.length = plan.verdef_count
  /-- The base version comes first, and then those of the script with their parents. -/
  definitions : defs.map (fun d => (d.flags, d.names)) =
    if input.defs = [] then []
    else (VER_FLG_BASE, [input.soname.getD []]) :: input.defs.map fun d => (0, d.name :: d.parents)
  indices_nodup : (versionIndices needs defs).Nodup
  indices : ∀ index ∈ versionIndices needs defs, 1 ≤ index ∧ index < VERSYM_HIDDEN
  /-- An imported symbol has the index of its version under its own library. -/
  imported : ∀ (position id : ℕ) (need : Need), plan.entries[position]? = some (.symbol id) →
    input.import_version id = some need →
    ∃ (k : ℕ) (record : Verneed), files[k]? = some need.file ∧ needs[k]? = some record ∧
      ∃ aux ∈ record.aux, aux.name = need.version ∧
        plan.versym[position + 1]? = some aux.other
  /-- The symbol of a version has the index of its definition. -/
  defined : ∀ (position v : ℕ), plan.entries[position]? = some (.version v) →
    ∃ d ∈ defs, plan.versym[position + 1]? = some d.index ∧
      d.names.head? = some (input.entry_name (.version v)) ∧ d.index = v

/-! ### The parts of a plan -/

/-- What a plan was made of: the exports, the first index of a needed version, and the string table
before the names of symbols, before the versions, between the two tables, and at the end. -/
structure Planned (hash : List UInt8 → ℕ) (chunk : ℕ) (plan : DynamicPlan) (exports : List Entry)
    (first : ℕ) (t₁ t₂ t₃ t₄ : StrTab) : Prop where
  exports_eq : input.exportEntries = .ok exports
  entries_eq : plan.entries = input.imports.map .symbol ++
    (planHashed input.entry_name input.gnu exports).map (·.2.1)
  entries_fit : plan.entries.length + 1 ≤ U32_MAX
  first_eq : input.firstNeedIndex = .ok first
  strings : ∃ offsets, StrTab.new.addEach hash input.strings = .ok (offsets, t₁)
  names : ∃ offsets, t₁.addAll hash chunk (plan.entries.map input.entry_name) = .ok (offsets, t₂)
  hashes : planHash input.entry_name (input.imports.map .symbol) exports input.gnu input.sysv
    input.kind input.wide_sysv_hash =
      .ok { entries := plan.entries, gnu_hash := plan.gnu_hash, sysv_hash := plan.sysv_hash }
  verneed_eq : input.putVerneed hash (input.needList plan.entries) first t₂
    (needFiles (input.needList plan.entries)) = .ok (plan.verneed, t₃)
  verneed_count_eq : plan.verneed_count = (needFiles (input.needList plan.entries)).length
  verdef_eq : input.verdef hash t₃ = .ok ((plan.verdef, plan.verdef_count), t₄)
  versym_eq : plan.versym = input.versym (input.needList plan.entries) first plan.entries
  dynstr_eq : plan.dynstr = t₄.data

variable {input}

variable {hash : List UInt8 → ℕ} {chunk : ℕ} {plan : DynamicPlan}

/-- **The parts of a plan.** -/
theorem planned_of_ok (h : input.planChosen hash chunk = .ok plan) :
    ∃ exports first t₁ t₂ t₃ t₄, input.Planned hash chunk plan exports first t₁ t₂ t₃ t₄ := by
  unfold planChosen at h
  obtain ⟨exports, hexports, h⟩ := bind_eq_ok.mp h
  dsimp only at h
  split at h
  · cases h
  next hfits =>
  obtain ⟨first, hfirst, h⟩ := bind_eq_ok.mp h
  obtain ⟨⟨offsets, t₁⟩, hstrings, h⟩ := bind_eq_ok.mp h
  obtain ⟨⟨offsets', t₂⟩, hnames, h⟩ := bind_eq_ok.mp h
  obtain ⟨hashes, hhashes, h⟩ := bind_eq_ok.mp h
  obtain ⟨⟨verneed, t₃⟩, hverneed, h⟩ := bind_eq_ok.mp h
  obtain ⟨⟨verdef, t₄⟩, hverdef, h⟩ := bind_eq_ok.mp h
  obtain rfl := Except.ok.inj h
  refine ⟨exports, first, t₁, t₂, t₃, t₄, hexports, rfl, Nat.not_lt.mp hfits, hfirst,
    ⟨offsets, hstrings⟩, ⟨offsets', hnames⟩, ?_, hverneed, rfl, hverdef, rfl, rfl⟩
  unfold hashTables at hhashes
  obtain ⟨gnuHash, hgnu, hhashes⟩ := bind_eq_ok.mp hhashes
  obtain ⟨sysvHash, hsysv, hhashes⟩ := bind_eq_ok.mp hhashes
  obtain rfl := Except.ok.inj hhashes
  unfold planHash
  dsimp only
  rw [if_neg hfits, hgnu, hsysv]
  rfl

section

variable {hash : List UInt8 → ℕ} {chunk : ℕ} {plan : DynamicPlan} {exports : List Entry}
  {first : ℕ} {t₁ t₂ t₃ t₄ : StrTab}

section

variable (h : input.Planned hash chunk plan exports first t₁ t₂ t₃ t₄)

include h

theorem Planned.exports_list :
    exports = input.exports.map .symbol ++
      (List.range input.defs.length).map fun index => .version (index + 2) := by
  have hexports := h.exports_eq
  unfold exportEntries at hexports
  split at hexports
  · cases hexports
  · exact (Except.ok.inj hexports).symm

theorem Planned.entries_perm :
    plan.entries.Perm (input.imports.map .symbol ++ (input.exports.map .symbol ++
      (List.range input.defs.length).map fun index => .version (index + 2))) := by
  rw [h.entries_eq, ← h.exports_list]
  refine List.Perm.append_left _ ?_
  have hperm := (planHashed_perm input.entry_name input.gnu exports).map (·.2.1)
  rwa [List.map_map, show ((fun x : ℕ × Entry × ℕ => x.2.1) ∘ fun entry =>
    (gnuHash (input.entry_name entry), entry,
      gnuHash (input.entry_name entry) % planBuckets input.gnu exports)) = id from rfl,
    List.map_id] at hperm

/-- The needed versions are those of the chosen symbols, and the extra ones. -/
theorem Planned.mem_needs (need : Need) :
    need ∈ input.needList plan.entries ↔ need ∈ input.neededPairs := by
  rw [mem_needList, neededPairs, List.mem_append, List.mem_append]
  refine or_congr_left ?_
  rw [(h.entries_perm.filterMap input.imported).mem_iff, List.filterMap_append,
    List.filterMap_append, List.filterMap_append, List.filterMap_map, List.filterMap_map,
    List.filterMap_map]
  have hnone : (List.range input.defs.length).filterMap
      (input.imported ∘ fun index => Entry.version (index + 2)) = [] :=
    List.filterMap_eq_nil_iff.mpr fun _ _ => rfl
  rw [hnone, List.append_nil]
  rfl

theorem Planned.length_needs :
    (input.needList plan.entries).length = input.neededPairs.dedup.length := by
  refine ((List.perm_ext_iff_of_nodup (nodup_of_sorted needList_sorted)
    (List.nodup_dedup _)).mpr fun need => ?_).length_eq
  rw [h.mem_needs, List.mem_dedup]

theorem Planned.first_spec :
    first = input.defs.length + 2 ∧ (input.defs ≠ [] → input.defs.length + 2 ≤ U16_MAX) := by
  have hfirst := h.first_eq
  unfold firstNeedIndex at hfirst
  split at hfirst
  · next hnil =>
    rw [hnil]
    exact ⟨(Except.ok.inj hfirst).symm, fun hne => absurd rfl hne⟩
  · split at hfirst
    · next hle => exact ⟨(Except.ok.inj hfirst).symm, fun _ => hle⟩
    · cases hfirst

end

/-! ### The walks -/

/-- The records that are needed. -/
def neededRecords (input : PlanInput) (needs : List Need) (first : ℕ) : List Verneed :=
  (needFiles needs).map fun file => verneedOf (fun name => needIndex needs first ⟨file, name⟩)
    (input.needed_name file) (versionsOf needs file)

/-- The records that are defined. -/
def definedRecords (input : PlanInput) : List Verdef :=
  if input.defs = [] then [] else input.verDefEntries.map verdefOf

theorem verDefEntries_spec (hnul : input.NulFree) : ∀ entry ∈ input.verDefEntries,
    entry.flags < 2 ^ 16 ∧ entry.index < 2 ^ 16 ∧
      ∀ text ∈ entry.name :: entry.parents, 0 ∉ text := by
  intro entry hentry
  rcases List.mem_cons.mp hentry with rfl | hentry
  · have hone : 1 < 2 ^ 16 := by decide
    refine ⟨hone, hone, fun text htext => ?_⟩
    rw [List.mem_singleton.mp htext]
    exact hnul.soname
  · obtain ⟨x, hx, rfl⟩ := List.mem_map.mp hentry
    have hd : x.1 ∈ input.defs := by
      have := List.mem_map_of_mem (f := Prod.fst) hx
      rwa [List.zipIdx_map_fst] at this
    refine ⟨Nat.two_pow_pos 16, ?_, hnul.defs x.1 hd⟩
    show (if x.2 + 2 ≤ U16_MAX then x.2 + 2 else U16_MAX) < 2 ^ 16
    split
    · next hle => exact Nat.lt_of_le_of_lt hle (by decide)
    · decide

/-- Before the versions, the string table holds names without NUL bytes. -/
theorem Planned.sound (h : input.Planned hash chunk plan exports first t₁ t₂ t₃ t₄)
    (hchunk : 0 < chunk) (hnul : input.NulFree) : ∃ strings, Sound hash t₂ strings := by
  obtain ⟨offsets, hadd⟩ := h.strings
  obtain ⟨strings, ht₁, _⟩ := addEach_sound sound_new hnul.strings hadd
  obtain ⟨offsets', haddAll⟩ := h.names
  have hnames : ∀ text ∈ plan.entries.map input.entry_name, 0 ∉ text := by
    intro text htext
    obtain ⟨entry, _, rfl⟩ := List.mem_map.mp htext
    exact entry_name_nulFree hnul entry
  obtain ⟨more, ht₂⟩ := addAll_sound ht₁ hchunk hnames
    (by rw [List.length_map]; exact Nat.le_of_succ_le h.entries_fit) haddAll
  exact ⟨_, ht₂⟩

/-- **The walk over `.gnu.version_d`.** -/
theorem verdef_walk (hnul : input.NulFree) {strings : List (List UInt8)}
    (ht₃ : Sound hash t₃ strings) {data : List UInt8} {count : ℕ}
    (hput : input.verdef hash t₃ = .ok ((data, count), t₄)) :
    ∃ more, Sound hash t₄ (strings ++ more) ∧ count = (definedRecords input).length ∧
      (if count = 0 then some [] else walkLinks (readVerdef input.kind data t₄.data) count 0) =
        some (definedRecords input) := by
  unfold PlanInput.verdef at hput
  unfold definedRecords
  split at hput
  · next hnil =>
    obtain ⟨hdata, rfl⟩ := Prod.mk.inj (Except.ok.inj hput)
    obtain ⟨rfl, rfl⟩ := Prod.mk.inj hdata
    rw [if_pos hnil]
    exact ⟨[], by rwa [List.append_nil], rfl, rfl⟩
  · next hne =>
    obtain ⟨⟨defs, t⟩, hadd, hput⟩ := bind_eq_ok.mp hput
    obtain ⟨bytes, hputVerdef, hput⟩ := bind_eq_ok.mp hput
    obtain ⟨hdata, rfl⟩ := Prod.mk.inj (Except.ok.inj hput)
    obtain ⟨rfl, rfl⟩ := Prod.mk.inj hdata
    obtain ⟨more, ht₄, hmap, hnames⟩ :=
      addDefNames_sound (fun entry hentry => (verDefEntries_spec hnul entry hentry).2.2) ht₃ hadd
    have hdefs : ∀ x ∈ defs, x.1.flags < 2 ^ 16 ∧ x.1.index < 2 ^ 16 ∧ List.Forall₂
        (fun text offset => offset ≤ U32_MAX ∧ stringAt t.data offset = text)
        (x.1.name :: x.1.parents) x.2 := by
      intro x hx
      have hentry : x.1 ∈ input.verDefEntries := by
        rw [← hmap]
        exact List.mem_map_of_mem hx
      obtain ⟨hflags, hindex, _⟩ := verDefEntries_spec hnul x.1 hentry
      have hfinal : Sound hash t (strings ++ more ++ []) := by rwa [List.append_nil]
      exact ⟨hflags, hindex, names_later hfinal (hnames x hx)⟩
    have hlinked := putVerdef_linked hdefs hputVerdef [] []
    rw [List.nil_append, List.append_nil, List.length_nil] at hlinked
    have hlength : defs.length = input.verDefEntries.length := by rw [← hmap, List.length_map]
    have hpos : defs ≠ [] := by
      rintro rfl
      cases hlength
    refine ⟨more, ht₄, ?_, ?_⟩
    · rw [if_neg hne, List.length_map, hlength]
    · rw [if_neg (List.length_pos_iff.mpr hpos).ne', if_neg hne,
        walkLinks_of_linked hlinked (by simpa using hpos) (by rw [List.length_map]), List.map_map,
        ← hmap, List.map_map]
      rfl

/-- **The walks.** -/
theorem Planned.walks (h : input.Planned hash chunk plan exports first t₁ t₂ t₃ t₄)
    (hchunk : 0 < chunk) (hnul : input.NulFree) :
    plan.verneedRecords input.kind =
        some (neededRecords input (input.needList plan.entries) first) ∧
      plan.verdefRecords input.kind = some (definedRecords input) ∧
      plan.verdef_count = (definedRecords input).length := by
  obtain ⟨strings, ht₂⟩ := h.sound hchunk hnul
  have hversions : ∀ file ∈ needFiles (input.needList plan.entries), ∀ text ∈
      input.needed_name file :: versionsOf (input.needList plan.entries) file, 0 ∉ text := by
    intro file _ text htext
    rcases List.mem_cons.mp htext with rfl | htext
    · exact hnul.needed_name file
    · exact hnul.version _ ((h.mem_needs _).mp (mem_versionsOf.mp htext))
  have hne : ∀ file ∈ needFiles (input.needList plan.entries),
      versionsOf (input.needList plan.entries) file ≠ [] := by
    intro file hfile
    obtain ⟨version, hversion⟩ := (mem_needFiles needList_sorted).mp hfile
    exact List.ne_nil_of_mem (mem_versionsOf.mpr hversion)
  obtain ⟨more, ht₃, hlinked⟩ := putVerneed_linked hversions hne ht₂ h.verneed_eq
  obtain ⟨later, ht₄, hcount, hdefs⟩ := verdef_walk hnul ht₃ h.verdef_eq
  have hlinked := hlinked ht₄ [] []
  rw [List.nil_append, List.append_nil, List.length_nil] at hlinked
  refine ⟨?_, ?_, hcount⟩
  · rw [DynamicPlan.verneedRecords, h.verneed_count_eq, h.dynstr_eq, neededRecords]
    split
    · next hzero =>
      rw [List.length_eq_zero_iff.mp hzero]
      rfl
    · next hzero =>
      have hfiles : needFiles (input.needList plan.entries) ≠ [] := by
        intro hnil
        exact hzero (by rw [hnil]; rfl)
      rw [walkLinks_of_linked hlinked (by simpa using hfiles) (by rw [List.length_map]),
        List.map_map]
      rfl
  · rw [DynamicPlan.verdefRecords, h.dynstr_eq]
    exact hdefs

/-! ### Indices -/

theorem definedRecords_index (hfit : input.defs ≠ [] → input.defs.length + 2 ≤ U16_MAX) :
    (definedRecords input).map Verdef.index =
      if input.defs = [] then [] else List.range' 1 (input.defs.length + 1) := by
  unfold definedRecords
  split
  · rfl
  · next hne =>
    have hfit := hfit hne
    rw [List.map_map, verDefEntries, List.map_cons, List.map_map, List.range'_succ]
    refine congrArg (1 :: ·) (List.ext_getElem? fun i => ?_)
    rw [List.getElem?_map, List.getElem?_zipIdx]
    by_cases hi : i < input.defs.length
    · rw [List.getElem?_eq_getElem hi, List.getElem?_range' hi]
      show some (if 0 + i + 2 ≤ U16_MAX then 0 + i + 2 else U16_MAX) = some (1 + 1 + 1 * i)
      rw [if_pos (by omega)]
      congr 1
      omega
    · rw [List.getElem?_eq_none (Nat.not_lt.mp hi), List.getElem?_eq_none]
      · rfl
      · rw [List.length_range']
        exact Nat.not_lt.mp hi

/-- The indices of the needed versions, in another order. -/
theorem neededRecords_index {needs : List Need}
    (h : needs.Pairwise fun a b => compare a b = .lt) (first : ℕ) :
    ((neededRecords input needs first).flatMap fun need => need.aux.map Vernaux.other).Perm
      (needs.map (needIndex needs first)) := by
  have hperm := (files_perm h).map (needIndex needs first)
  rw [List.map_flatMap] at hperm
  rw [neededRecords, List.flatMap_map]
  refine (List.Perm.of_eq ?_).trans hperm
  refine List.flatMap_congr fun file _ => ?_
  rw [verneedOf, List.map_map, List.map_map]
  rfl

theorem needIndex_map {needs : List Need} (h : needs.Pairwise fun a b => compare a b = .lt)
    {first : ℕ} (hfit : needs.length + first ≤ U16_MAX + 1) (hfirst : 0 < first) :
    needs.map (needIndex needs first) = List.range' first needs.length := by
  refine List.ext_getElem? fun i => ?_
  rw [List.getElem?_map]
  by_cases hi : i < needs.length
  · have hget := List.getElem?_eq_getElem hi
    rw [hget, Option.map_some, needIndex_eq h first hget, if_pos (by omega),
      List.getElem?_range' hi]
    congr 1
    omega
  · rw [List.getElem?_eq_none (Nat.not_lt.mp hi), List.getElem?_eq_none]
    · rfl
    · rw [List.length_range']
      exact Nat.not_lt.mp hi

/-- **Few enough versions.**  The indices are the first ones. -/
theorem Planned.indices (h : input.Planned hash chunk plan exports first t₁ t₂ t₃ t₄)
    (hfits : input.defs.length + input.neededPairs.dedup.length + 1 < VERSYM_HIDDEN) :
    (versionIndices (neededRecords input (input.needList plan.entries) first)
      (definedRecords input)).Perm
      (if input.defs = [] then List.range' 2 (input.needList plan.entries).length
      else List.range' 1 (input.defs.length + 1 + (input.needList plan.entries).length)) := by
  have hidden : VERSYM_HIDDEN = 32768 := rfl
  have hmax : U16_MAX = 65535 := rfl
  have hlength := h.length_needs
  obtain ⟨rfl, hdefs⟩ := h.first_spec
  have hsorted : (input.needList plan.entries).Pairwise fun a b => compare a b = .lt :=
    needList_sorted
  have hneeded := @neededRecords_index input _ hsorted (input.defs.length + 2)
  rw [needIndex_map hsorted (by omega) (by omega)] at hneeded
  unfold versionIndices
  rw [definedRecords_index hdefs]
  split
  · next hnil =>
    rw [hnil] at hneeded ⊢
    exact hneeded
  · refine (hneeded.append_left _).trans (List.Perm.of_eq ?_)
    rw [show input.defs.length + 2 = 1 + (input.defs.length + 1) by omega, List.range'_append_1]

/-- **Too many versions.**  Not every index is one. -/
theorem Planned.not_indices (h : input.Planned hash chunk plan exports first t₁ t₂ t₃ t₄)
    (hfits : ¬input.defs.length + input.neededPairs.dedup.length + 1 < VERSYM_HIDDEN) :
    ∃ index ∈ versionIndices (neededRecords input (input.needList plan.entries) first)
      (definedRecords input), ¬(1 ≤ index ∧ index < VERSYM_HIDDEN) := by
  have hidden : VERSYM_HIDDEN = 32768 := rfl
  have hlength := h.length_needs
  obtain ⟨rfl, hdefs⟩ := h.first_spec
  unfold versionIndices
  by_cases hzero : (input.needList plan.entries).length = 0
  · -- The last definition has the bit.
    have hne : input.defs ≠ [] := by
      intro hnil
      rw [hnil, List.length_nil] at hfits
      omega
    refine ⟨input.defs.length + 1, List.mem_append_left _ ?_, by omega⟩
    rw [definedRecords_index hdefs, if_neg hne, List.mem_range'_1]
    omega
  · -- The last needed version has the bit, or no index.
    have hlast :
        (input.needList plan.entries).length - 1 < (input.needList plan.entries).length := by
      omega
    have hget := List.getElem?_eq_getElem hlast
    refine ⟨_, List.mem_append_right _ ((neededRecords_index needList_sorted _).mem_iff.mpr
      (List.mem_map_of_mem (List.mem_of_getElem? hget))), ?_⟩
    rw [needIndex_eq needList_sorted _ hget]
    split <;> omega

/-! ### The tables -/

theorem neededRecords_spec (h : input.Planned hash chunk plan exports first t₁ t₂ t₃ t₄) :
    List.Forall₂ (fun file need => need.file = input.needed_name file ∧
      need.count = need.aux.length ∧ (need.aux.map Vernaux.name).Nodup ∧
      ∀ version, version ∈ need.aux.map Vernaux.name ↔ ⟨file, version⟩ ∈ input.neededPairs)
      (needFiles (input.needList plan.entries))
      (neededRecords input (input.needList plan.entries) first) := by
  rw [neededRecords, List.forall₂_map_right_iff, List.forall₂_same]
  intro file _
  have hnames : ((versionsOf (input.needList plan.entries) file).map (vernauxOf fun name =>
      needIndex (input.needList plan.entries) first ⟨file, name⟩)).map Vernaux.name =
        versionsOf (input.needList plan.entries) file := by
    rw [List.map_map]
    exact List.map_id _
  refine ⟨rfl, Eq.symm (List.length_map _), ?_, fun version => ?_⟩
  · rw [verneedOf, hnames]
    exact versionsOf_nodup (nodup_of_sorted needList_sorted) file
  · rw [verneedOf, hnames, mem_versionsOf, h.mem_needs]

theorem definedRecords_names (input : PlanInput) :
    (definedRecords input).map (fun d => (d.flags, d.names)) =
      if input.defs = [] then []
      else (VER_FLG_BASE, [input.soname.getD []]) ::
        input.defs.map fun d => (0, d.name :: d.parents) := by
  unfold definedRecords
  split
  · rfl
  · rw [List.map_map, verDefEntries, List.map_cons, List.map_map]
    refine congrArg (_ :: ·) ?_
    conv_rhs => rw [← List.zipIdx_map_fst 0 input.defs, List.map_map]
    rfl

/-- The entry of `.gnu.version` for an entry of `.dynsym`. -/
theorem Planned.versym_at (h : input.Planned hash chunk plan exports first t₁ t₂ t₃ t₄)
    (hversions : input.defs ≠ [] ∨ input.needList plan.entries ≠ []) {position : ℕ} {entry : Entry}
    (hentry : plan.entries[position]? = some entry) :
    plan.versym[position + 1]? =
      some (input.versymOf (input.needList plan.entries) first entry) := by
  rw [h.versym_eq, versym, if_pos hversions, List.getElem?_cons_succ, List.getElem?_map, hentry]
  rfl

theorem Planned.imported (h : input.Planned hash chunk plan exports first t₁ t₂ t₃ t₄)
    {position id : ℕ} {need : Need} (hentry : plan.entries[position]? = some (.symbol id))
    (himport : input.import_version id = some need) :
    ∃ (k : ℕ) (record : Verneed), (needFiles (input.needList plan.entries))[k]? = some need.file ∧
      (neededRecords input (input.needList plan.entries) first)[k]? = some record ∧
      ∃ aux ∈ record.aux, aux.name = need.version ∧
        plan.versym[position + 1]? = some aux.other := by
  have hneed : need ∈ input.needList plan.entries :=
    mem_needList.mpr (List.mem_append_left _ (List.mem_filterMap.mpr
      ⟨.symbol id, List.mem_of_getElem? hentry, himport⟩))
  have hfile : need.file ∈ needFiles (input.needList plan.entries) :=
    (mem_needFiles needList_sorted).mpr ⟨need.version, hneed⟩
  obtain ⟨k, hk⟩ := List.mem_iff_getElem?.mp hfile
  have hrecord : (neededRecords input (input.needList plan.entries) first)[k]? = some
      (verneedOf (fun name => needIndex (input.needList plan.entries) first ⟨need.file, name⟩)
        (input.needed_name need.file) (versionsOf (input.needList plan.entries) need.file)) := by
    rw [neededRecords, List.getElem?_map, hk]
    rfl
  refine ⟨k, _, hk, hrecord, _, List.mem_map_of_mem (mem_versionsOf.mpr hneed), rfl, ?_⟩
  rw [h.versym_at (.inr (List.ne_nil_of_mem hneed)) hentry, versymOf, himport]
  rfl

theorem Planned.defined (h : input.Planned hash chunk plan exports first t₁ t₂ t₃ t₄)
    {position v : ℕ} (hentry : plan.entries[position]? = some (.version v)) :
    ∃ d ∈ definedRecords input, plan.versym[position + 1]? = some d.index ∧
      d.names.head? = some (input.entry_name (.version v)) ∧ d.index = v := by
  have hmem := h.entries_perm.mem_iff.mp (List.mem_of_getElem? hentry)
  have hversion : Entry.version v ∈
      (List.range input.defs.length).map fun index => Entry.version (index + 2) := by
    rcases List.mem_append.mp hmem with hmem | hmem
    · obtain ⟨_, _, heq⟩ := List.mem_map.mp hmem
      cases heq
    · rcases List.mem_append.mp hmem with hmem | hmem
      · obtain ⟨_, _, heq⟩ := List.mem_map.mp hmem
        cases heq
      · exact hmem
  obtain ⟨index, hindex, heq⟩ := List.mem_map.mp hversion
  obtain rfl := Entry.version.inj heq
  have hlt := List.mem_range.mp hindex
  have hne : input.defs ≠ [] := List.ne_nil_of_length_pos (Nat.zero_lt_of_lt hlt)
  have hfit := h.first_spec.2 hne
  have hle : index + 2 ≤ U16_MAX := by omega
  have hget : input.defs.zipIdx[index]? = some (input.defs[index], index) := by
    rw [List.getElem?_zipIdx, List.getElem?_eq_getElem hlt, Nat.zero_add]
    rfl
  refine ⟨verdefOf (verDefEntry input.defs[index] index), ?_, ?_, ?_, ?_⟩
  · rw [definedRecords, if_neg hne]
    refine List.mem_map_of_mem (List.mem_cons_of_mem _ ?_)
    exact List.mem_map.mpr ⟨_, List.mem_of_getElem? hget, rfl⟩
  · rw [h.versym_at (.inl hne) hentry, versymOf, verdefOf, verDefEntry, if_pos hle]
  · show some input.defs[index].name = some (input.defs[index]?.elim [] VersionDef.name)
    rw [List.getElem?_eq_getElem hlt]
    rfl
  · exact if_pos hle

/-- **Few enough versions make the tables consistent.** -/
theorem Planned.versionTables (h : input.Planned hash chunk plan exports first t₁ t₂ t₃ t₄)
    (hchunk : 0 < chunk) (hnul : input.NulFree)
    (hfits : input.defs.length + input.neededPairs.dedup.length + 1 < VERSYM_HIDDEN) :
    input.VersionTables plan (neededRecords input (input.needList plan.entries) first)
      (definedRecords input) (needFiles (input.needList plan.entries)) := by
  obtain ⟨hneeds, hdefs, hcount⟩ := h.walks hchunk hnul
  have hindices := h.indices hfits
  have hlength := h.length_needs
  have hidden : VERSYM_HIDDEN = 32768 := rfl
  exact
    { entries := h.entries_perm
      needs_walk := hneeds
      needs_count := by rw [h.verneed_count_eq, neededRecords, List.length_map]
      files_nodup := by
        rw [needFiles_eq needList_sorted]
        exact List.nodup_dedup _
      mem_files := fun file => by
        simp only [mem_needFiles needList_sorted, h.mem_needs]
      records := neededRecords_spec h
      defs_walk := hdefs
      defs_count := hcount.symm
      definitions := definedRecords_names input
      indices_nodup := by
        rw [hindices.nodup_iff]
        split <;> exact List.nodup_range'
      indices := fun index hindex => by
        rw [hindices.mem_iff] at hindex
        split at hindex <;> rw [List.mem_range'_1] at hindex <;> omega
      imported := fun position id need hentry himport => h.imported hentry himport
      defined := fun position v hentry => h.defined hentry }

end

/-- Too many versions leave no reading of the tables. -/
theorem Planned.not_versionTables {exports : List Entry} {first : ℕ} {t₁ t₂ t₃ t₄ : StrTab}
    (h : input.Planned hash chunk plan exports first t₁ t₂ t₃ t₄) (hchunk : 0 < chunk)
    (hnul : input.NulFree)
    (hfits : ¬input.defs.length + input.neededPairs.dedup.length + 1 < VERSYM_HIDDEN) :
    ¬∃ needs defs files, input.VersionTables plan needs defs files := by
  rintro ⟨needs, defs, files, htables⟩
  obtain ⟨hneeds, hdefs, _⟩ := h.walks hchunk hnul
  obtain ⟨index, hindex, hbad⟩ := h.not_indices hfits
  rw [← Option.some.inj (htables.needs_walk.symm.trans hneeds),
    ← Option.some.inj (htables.defs_walk.symm.trans hdefs)] at hindex
  exact hbad (htables.indices index hindex)

/-! ### Many versions -/

/-- A name of two bytes. -/
def shortName (i : ℕ) : List UInt8 :=
  [UInt8.ofNat (1 + i / 255 % 255), UInt8.ofNat (1 + i % 255)]

/-- Some symbols, each imported with a version of its own: from one library, up to the number of
versions that a library can define, and then from another one. -/
def manyVersions (n : ℕ) : PlanInput where
  imports := List.range n
  exports := []
  name := shortName
  definition_kind _ := .shared
  import_version id := some ⟨id / 32766, shortName id⟩
  exports_version _ := 0
  defs := []
  soname := none
  glibc_abi_versions := []
  needed_name file := [UInt8.ofNat (1 + file % 255)]
  strings := []
  gnu := true
  sysv := true
  kind := .elf64Le
  wide_sysv_hash := false

theorem ofNat_ne_zero (n : ℕ) : UInt8.ofNat (1 + n % 255) ≠ 0 := by
  intro h
  have := congrArg UInt8.toNat h
  rw [UInt8.toNat_ofNat'] at this
  have hzero : (0 : UInt8).toNat = 0 := rfl
  omega

theorem shortName_nulFree (i : ℕ) : 0 ∉ shortName i := by
  intro h
  rcases List.mem_cons.mp h with h | h
  · exact ofNat_ne_zero _ h.symm
  · exact ofNat_ne_zero _ (List.mem_singleton.mp h).symm

theorem shortName_injOn {i j : ℕ} (hi : i < 65025) (hj : j < 65025)
    (h : shortName i = shortName j) : i = j := by
  obtain ⟨hhigh, hlow⟩ := List.cons.inj h
  have hhigh := congrArg UInt8.toNat hhigh
  have hlow := congrArg UInt8.toNat (List.cons.inj hlow).1
  rw [UInt8.toNat_ofNat', UInt8.toNat_ofNat'] at hhigh hlow
  omega

theorem manyVersions_neededPairs (n : ℕ) : (manyVersions n).neededPairs =
    (List.range n).map fun id => ⟨id / 32766, shortName id⟩ := by
  show ((List.range n ++ []).filterMap fun id => some _) ++ [] = _
  rw [List.append_nil, List.append_nil]
  exact congrFun List.filterMap_eq_map _

theorem manyVersions_nulFree (n : ℕ) : (manyVersions n).NulFree where
  name := shortName_nulFree
  version need hneed := by
    rw [manyVersions_neededPairs] at hneed
    obtain ⟨id, _, rfl⟩ := List.mem_map.mp hneed
    exact shortName_nulFree id
  defs _ hd := absurd hd List.not_mem_nil
  soname := List.not_mem_nil
  needed_name file h := ofNat_ne_zero _ (List.mem_singleton.mp h).symm
  strings _ htext := absurd htext List.not_mem_nil

theorem manyVersions_distinct {n : ℕ} (h : n ≤ 32767) :
    (manyVersions n).neededPairs.dedup.length = n := by
  rw [manyVersions_neededPairs, List.Nodup.dedup, List.length_map, List.length_range]
  refine List.Nodup.map_on (fun i hi j hj hij => ?_) List.nodup_range
  rw [List.mem_range] at hi hj
  exact shortName_injOn (by omega) (by omega) (congrArg Need.version hij)

theorem length_flatMap_cons {α β : Type} (f : α → β) (g : α → List β) (xs : List α) :
    (xs.flatMap fun x => f x :: g x).length = xs.length + (xs.flatMap g).length := by
  induction xs with
  | nil => rfl
  | cons x xs ih =>
    rw [List.flatMap_cons, List.flatMap_cons, List.length_append, List.length_append, ih,
      List.length_cons, List.length_cons]
    omega

/-- The strings of their version tables are short, and few. -/
theorem manyVersions_bytes {n : ℕ} {entries : List Entry} :
    bytesOf ((manyVersions n).versionTexts ((manyVersions n).needList entries)) ≤
      (2 * ((manyVersions n).needList entries).length + 1) * 3 := by
  generalize hneeds : (manyVersions n).needList entries = needs
  have hsorted : needs.Pairwise fun a b => compare a b = .lt := hneeds ▸ needList_sorted
  have hshort : ∀ need ∈ needs, need.version.length = 2 := by
    intro need hneed
    rw [← hneeds] at hneed
    rcases List.mem_append.mp (mem_needList.mp hneed) with hneed | hneed
    · obtain ⟨entry, _, himport⟩ := List.mem_filterMap.mp hneed
      cases entry with
      | symbol id =>
        obtain rfl := Option.some.inj himport
        rfl
      | version v => cases himport
    · cases hneed
  refine (bytesOf_le (n := 3) fun text htext => ?_).trans (Nat.mul_le_mul_right 3 ?_)
  · rcases List.mem_append.mp htext with htext | htext
    · obtain ⟨file, _, htext⟩ := List.mem_flatMap.mp htext
      rcases List.mem_cons.mp htext with rfl | htext
      · exact Nat.le_succ 2
      · have hlength := hshort _ (mem_versionsOf.mp htext)
        exact (congrArg (· + 1) hlength).le
    · rw [List.mem_singleton.mp htext]
      exact Nat.one_le_ofNat
  · have hversions := (files_perm hsorted).length_eq
    have hfiles : (needFiles needs).length ≤ needs.length :=
      (List.destutter_sublist _ _).length_le.trans (List.length_map _).le
    rw [versionTexts, List.length_append, length_flatMap_cons]
    simp only [List.length_flatMap, List.length_map] at hversions ⊢
    show (needFiles needs).length + _ + 1 ≤ _
    omega

theorem manyVersions_planned {hash : List UInt8 → ℕ} {chunk : ℕ} (hchunk : 0 < chunk) {n : ℕ}
    (h : n ≤ 32767) : ∃ plan, (manyVersions n).planChosen hash chunk = .ok plan := by
  have hmax : U32_MAX = 4294967295 := rfl
  have hmax' : U16_MAX = 65535 := rfl
  have hhashed : (planHashed (manyVersions n).entry_name (manyVersions n).gnu []).length = 0 := by
    rw [(planHashed_perm _ _ _).length_eq]
    rfl
  generalize hentries : (manyVersions n).imports.map Entry.symbol ++
    (planHashed (manyVersions n).entry_name (manyVersions n).gnu []).map (·.2.1) = entries
  have hlength : entries.length = n := by
    rw [← hentries, List.length_append, List.length_map, List.length_map, hhashed]
    exact List.length_range
  have hneeds : ((manyVersions n).needList entries).length ≤ n :=
    length_needList_le.trans ((List.length_filterMap_le _ _).trans hlength.le)
  have hbytes := @manyVersions_bytes n entries
  have hnames : bytesOf (entries.map (manyVersions n).entry_name) ≤ n * 3 := by
    refine (bytesOf_le (n := 3) fun text htext => ?_).trans
      (Nat.mul_le_mul_right 3 ((List.length_map _).trans hlength).le)
    obtain ⟨entry, _, rfl⟩ := List.mem_map.mp htext
    cases entry with
    | symbol id => exact Nat.le_refl 3
    | version v => exact Nat.one_le_ofNat
  have hcount : (manyVersions n).imports.length + ([] : List Entry).length + 1 ≤ U32_MAX := by
    show (List.range n).length + 0 + 1 ≤ U32_MAX
    rw [List.length_range]
    omega
  have htotal : bytesOf ((manyVersions n).strings ++ entries.map (manyVersions n).entry_name ++
      (manyVersions n).versionTexts ((manyVersions n).needList entries)) + 1 ≤ U32_MAX := by
    rw [bytesOf_append, bytesOf_append]
    show 0 + _ + _ + 1 ≤ U32_MAX
    omega
  obtain ⟨plan, hplan, _⟩ := @planChosen_ok hash (manyVersions n) _ hchunk
    (manyVersions_nulFree n) _ _ rfl hentries.symm (Nat.le_of_ble_eq_true rfl) hcount (by omega)
    (fun _ hd => absurd hd List.not_mem_nil) htotal
  exact ⟨plan, hplan⟩

end PlanInput

open PlanInput in
/-- **The version tables (proved).**  Those of a plan are consistent if and only if all versions,
with the base version, have an index below the hidden bit. -/
theorem versionTables_iff {input : PlanInput} {hash : List UInt8 → ℕ} {chunk : ℕ}
    (hchunk : 0 < chunk) (hnul : input.NulFree) {plan : DynamicPlan}
    (hplan : input.planChosen hash chunk = .ok plan) :
    (∃ needs defs files, input.VersionTables plan needs defs files) ↔
      input.defs.length + input.neededPairs.dedup.length + 1 < VERSYM_HIDDEN := by
  obtain ⟨exports, first, t₁, t₂, t₃, t₄, h⟩ := planned_of_ok hplan
  constructor
  · intro htables
    by_contra hfits
    exact h.not_versionTables hchunk hnul hfits htables
  · intro hfits
    exact ⟨_, _, _, h.versionTables hchunk hnul hfits⟩

open PlanInput in
theorem versionTables_one :
    ∃ plan, (manyVersions 1).planChosen gnuHash STRINGS_PER_TASK = .ok plan ∧
      ∃ needs defs files, (manyVersions 1).VersionTables plan needs defs files := by
  obtain ⟨plan, hplan⟩ := @manyVersions_planned gnuHash STRINGS_PER_TASK
    (by decide) 1 (by decide)
  exact ⟨plan, hplan, (versionTables_iff (by decide) (manyVersions_nulFree 1) hplan).mpr (by decide)⟩

open PlanInput in
/-- 32767 versions of two libraries. -/
theorem many_not_versionTables :
    ∃ plan, (manyVersions 32767).planChosen gnuHash STRINGS_PER_TASK = .ok plan ∧
      ¬∃ needs defs files, (manyVersions 32767).VersionTables plan needs defs files := by
  obtain ⟨plan, hplan⟩ := @manyVersions_planned gnuHash STRINGS_PER_TASK
    (by decide) _ (Nat.le_refl 32767)
  obtain ⟨exports, first, t₁, t₂, t₃, t₄, h⟩ := planned_of_ok hplan
  refine ⟨plan, hplan, h.not_versionTables (by decide) (manyVersions_nulFree _) ?_⟩
  rw [manyVersions_distinct (Nat.le_refl 32767)]
  exact Nat.lt_irrefl 32768

end Qld.Elf.Dynsym
