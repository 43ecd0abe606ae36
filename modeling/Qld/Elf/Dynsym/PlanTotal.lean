import Qld.Elf.Dynsym.HashCorrect
import Qld.Elf.Dynsym.VersionRecords

/-!
# Needed versions, and plans that succeed

* `needList_sorted`, `mem_needList` — the list has every needed version once, in order;
* `needIndex_eq` — the index of a version is its position, behind the first index;
* `files_perm` — the versions of all files are the needed versions;
* `NulFree` — what readers and options promise of the planner's input;
* `bytesOf` — the bytes that strings take at most;
* `addEach_ok`, `addAll_ok` — strings of few bytes are added;
* `putVerneed_ok` — few versions are written;
* `planChosen_ok` — an input whose strings and versions fit the tables has a plan.
-/

namespace Qld.Elf.Dynsym

open Qld.Lib

/-! ### The order -/

instance : Std.TransOrd Need :=
  inferInstanceAs (Std.TransCmp (compareLex (compareOn Need.file) (compareOn Need.version)))

instance : Std.LawfulEqOrd Need where
  eq_of_compare {a b} h := by
    obtain ⟨hfile, hversion⟩ := Ordering.then_eq_eq.mp h
    obtain ⟨file, version⟩ := a
    obtain ⟨file', version'⟩ := b
    obtain rfl : file = file' := Std.LawfulEqOrd.eq_of_compare hfile
    obtain rfl : version = version' := Std.LawfulEqOrd.eq_of_compare hversion
    rfl

instance : Std.Antisymm fun a b : Need => (compare a b).isLE = true where
  antisymm _ _ hab hba := Std.LawfulEqOrd.eq_of_compare (Std.OrientedCmp.isLE_antisymm hab hba)

theorem sortNeeds_sorted (needs : List Need) :
    (sortNeeds needs).Pairwise fun a b => (compare a b).isLE = true :=
  pairwise_mergeSort_cmp needs

theorem mem_sortNeeds {needs : List Need} {need : Need} :
    need ∈ sortNeeds needs ↔ need ∈ needs :=
  List.mem_mergeSort

/-! ### The list -/

section

variable {input : PlanInput} {entries : List Entry}

theorem needList_eq_dedup : ∃ sorted : List Need,
    (sorted.Pairwise fun a b => (compare a b).isLE = true) ∧
    (∀ need, need ∈ sorted ↔
      need ∈ entries.filterMap input.imported ++ input.glibc_abi_versions) ∧
    input.needList entries = sorted.dedup := by
  unfold PlanInput.needList
  dsimp only
  by_cases habi : input.glibc_abi_versions = []
  · refine ⟨_, sortNeeds_sorted (entries.filterMap input.imported), fun need => ?_, ?_⟩
    · rw [mem_sortNeeds, habi, List.append_nil]
    · rw [if_pos habi, (sortNeeds_sorted _).destutter_eq_dedup]
  · refine ⟨_, sortNeeds_sorted (sortNeeds (entries.filterMap input.imported) ++
      input.glibc_abi_versions), fun need => ?_, ?_⟩
    · rw [mem_sortNeeds, List.mem_append, mem_sortNeeds, List.mem_append]
    · rw [if_neg habi, (sortNeeds_sorted _).destutter_eq_dedup]

/-- **Every needed version is in the list.** -/
theorem mem_needList {need : Need} :
    need ∈ input.needList entries ↔
      need ∈ entries.filterMap input.imported ++ input.glibc_abi_versions := by
  obtain ⟨sorted, _, hmem, heq⟩ := @needList_eq_dedup input entries
  rw [heq, List.mem_dedup, hmem]

/-- **The list is in order, without repeats.** -/
theorem needList_sorted :
    (input.needList entries).Pairwise fun a b => compare a b = .lt := by
  obtain ⟨sorted, hsorted, _, heq⟩ := @needList_eq_dedup input entries
  rw [heq]
  have hnodup : sorted.dedup.Pairwise (· ≠ ·) := List.nodup_dedup sorted
  refine ((hsorted.sublist (List.dedup_sublist sorted)).and hnodup).imp fun {a b} hab => ?_
  refine (Ordering.isLE_iff_eq_lt_or_eq_eq.mp hab.1).resolve_right fun h => hab.2 ?_
  exact Std.LawfulEqOrd.eq_of_compare h

theorem length_needList_le : (input.needList entries).length ≤
    (entries.filterMap input.imported).length + input.glibc_abi_versions.length := by
  unfold PlanInput.needList
  refine (List.destutter_sublist _ _).length_le.trans ?_
  split
  · rw [sortNeeds, List.length_mergeSort]
    exact Nat.le_add_right _ _
  · rw [sortNeeds, List.length_mergeSort, List.length_append, sortNeeds, List.length_mergeSort]

end

section

variable {needs : List Need}

theorem nodup_of_sorted (h : needs.Pairwise fun a b => compare a b = .lt) : needs.Nodup :=
  h.imp fun {a b} hab heq => by
    rw [heq, Std.ReflOrd.compare_self] at hab
    cases hab

/-- **The index of a needed version.** -/
theorem needIndex_eq (h : needs.Pairwise fun a b => compare a b = .lt) (first : ℕ) {position : ℕ}
    {need : Need} (hget : needs[position]? = some need) :
    needIndex needs first need =
      if position ≤ U16_MAX ∧ position + first ≤ U16_MAX then position + first else 0 := by
  have hlt := (List.getElem?_eq_some_iff.mp hget).1
  rw [needIndex, searchEq_eq_some (fun _ _ => rfl) h hget (Nat.zero_le _) hlt (Nat.le_refl _)]
  rfl

/-! ### Files -/

theorem files_sorted (h : needs.Pairwise fun a b => compare a b = .lt) :
    (needs.map Need.file).Pairwise (· ≤ ·) := by
  rw [List.pairwise_map]
  refine h.imp fun {a b} hab => ?_
  have hlex : (compare a.file b.file).then (compare a.version b.version) = .lt := hab
  rcases Ordering.then_eq_lt.mp hlex with hlt | heq
  · exact (Nat.compare_eq_lt.mp hlt).le
  · exact (Nat.compare_eq_eq.mp heq.1).le

theorem needFiles_eq (h : needs.Pairwise fun a b => compare a b = .lt) :
    needFiles needs = (needs.map Need.file).dedup :=
  (files_sorted h).destutter_eq_dedup

theorem mem_needFiles (h : needs.Pairwise fun a b => compare a b = .lt) {file : ℕ} :
    file ∈ needFiles needs ↔ ∃ version, ⟨file, version⟩ ∈ needs := by
  rw [needFiles_eq h, List.mem_dedup, List.mem_map]
  constructor
  · rintro ⟨need, hneed, rfl⟩
    exact ⟨need.version, hneed⟩
  · rintro ⟨version, hneed⟩
    exact ⟨_, hneed, rfl⟩

theorem mem_versionsOf {file : ℕ} {version : List UInt8} :
    version ∈ versionsOf needs file ↔ ⟨file, version⟩ ∈ needs := by
  unfold versionsOf
  rw [List.mem_map]
  constructor
  · rintro ⟨need, hneed, rfl⟩
    obtain ⟨hmem, hfile⟩ := List.mem_filter.mp hneed
    rwa [← of_decide_eq_true hfile]
  · intro hneed
    exact ⟨_, List.mem_filter.mpr ⟨hneed, decide_eq_true rfl⟩, rfl⟩

theorem versionsOf_nodup (h : needs.Nodup) (file : ℕ) : (versionsOf needs file).Nodup := by
  unfold versionsOf
  refine List.Nodup.map_on (fun a ha b hb hab => ?_) (h.filter _)
  have hfile := of_decide_eq_true (List.mem_filter.mp ha).2
  have hfile' := of_decide_eq_true (List.mem_filter.mp hb).2
  obtain ⟨file₁, version₁⟩ := a
  obtain ⟨file₂, version₂⟩ := b
  obtain rfl : file₁ = file := hfile
  obtain rfl : file₂ = file₁ := hfile'
  obtain rfl : version₁ = version₂ := hab
  rfl

/-- **The versions of all files are the needed versions.** -/
theorem files_perm (h : needs.Pairwise fun a b => compare a b = .lt) :
    ((needFiles needs).flatMap fun file =>
      (versionsOf needs file).map fun version => (⟨file, version⟩ : Need)).Perm needs := by
  refine (List.perm_ext_iff_of_nodup ?_ (nodup_of_sorted h)).mpr fun need => ?_
  · rw [List.nodup_flatMap]
    refine ⟨fun file _ => (versionsOf_nodup (nodup_of_sorted h) file).map fun a b hab => ?_, ?_⟩
    · exact congrArg Need.version hab
    · have hnodup : (needFiles needs).Pairwise (· ≠ ·) := by
        rw [needFiles_eq h]
        exact List.nodup_dedup _
      refine hnodup.imp fun {file file'} hne need hneed hneed' => hne ?_
      obtain ⟨version, _, rfl⟩ := List.mem_map.mp hneed
      obtain ⟨version', _, heq⟩ := List.mem_map.mp hneed'
      exact (congrArg Need.file heq).symm
  · rw [List.mem_flatMap]
    constructor
    · rintro ⟨file, _, hneed⟩
      obtain ⟨version, hversion, rfl⟩ := List.mem_map.mp hneed
      exact mem_versionsOf.mp hversion
    · intro hneed
      exact ⟨need.file, (mem_needFiles h).mpr ⟨need.version, hneed⟩,
        List.mem_map.mpr ⟨need.version, mem_versionsOf.mpr hneed, rfl⟩⟩

end

/-! ### What the planner is told -/

namespace PlanInput

variable (input : PlanInput)

/-- The pairs of files and versions that the output needs, with repeats. -/
def neededPairs : List Need :=
  (input.imports ++ input.exports).filterMap input.import_version ++ input.glibc_abi_versions

/-- Names from symbol tables, string tables and options have no NUL bytes. -/
structure NulFree : Prop where
  name : ∀ id, 0 ∉ input.name id
  version : ∀ need ∈ input.neededPairs, 0 ∉ need.version
  defs : ∀ d ∈ input.defs, ∀ text ∈ d.name :: d.parents, 0 ∉ text
  soname : 0 ∉ input.soname.getD []
  needed_name : ∀ file, 0 ∉ input.needed_name file
  strings : ∀ text ∈ input.strings, 0 ∉ text

variable {input}

theorem entry_name_nulFree (hnul : input.NulFree) (entry : Entry) : 0 ∉ input.entry_name entry := by
  cases entry with
  | symbol id => exact hnul.name id
  | version v =>
    show 0 ∉ (input.defs[v - 2]?).elim [] VersionDef.name
    cases hget : input.defs[v - 2]? with
    | none => exact List.not_mem_nil
    | some d => exact hnul.defs d (List.mem_of_getElem? hget) _ List.mem_cons_self

end PlanInput

/-! ### Strings that fit -/

/-- The bytes of strings with their terminators. -/
def bytesOf (texts : List (List UInt8)) : ℕ := (texts.map fun text => text.length + 1).sum

theorem bytesOf_cons (text : List UInt8) (texts : List (List UInt8)) :
    bytesOf (text :: texts) = text.length + 1 + bytesOf texts :=
  List.sum_cons

theorem bytesOf_append (xs ys : List (List UInt8)) :
    bytesOf (xs ++ ys) = bytesOf xs + bytesOf ys := by
  rw [bytesOf, List.map_append, List.sum_append, ← bytesOf, ← bytesOf]

theorem bytesOf_le {texts : List (List UInt8)} {n : ℕ} (h : ∀ text ∈ texts, text.length + 1 ≤ n) :
    bytesOf texts ≤ texts.length * n := by
  induction texts with
  | nil => exact Nat.zero_le _
  | cons text texts ih =>
    obtain ⟨htext, htexts⟩ := List.forall_mem_cons.mp h
    rw [bytesOf_cons, List.length_cons, Nat.succ_mul, Nat.add_comm]
    exact Nat.add_le_add (ih htexts) htext

section

variable {hash : List UInt8 → ℕ}

/-- **A string that fits.** -/
theorem add_ok {t : StrTab} {text : List UInt8} (h : t.data.length ≤ U32_MAX) :
    ∃ offset t', t.add hash text = .ok (offset, t') ∧
      t'.data.length ≤ t.data.length + (text.length + 1) := by
  unfold StrTab.add
  split
  · exact ⟨_, _, rfl, Nat.le_add_right _ _⟩
  · split
    · exact ⟨_, _, rfl, Nat.le_add_right _ _⟩
    · refine ⟨_, _, rfl, Nat.le_of_eq ?_⟩
      show (t.data ++ text ++ [0]).length = _
      rw [List.length_append, List.length_append, List.length_singleton, Nat.add_assoc]

/-- **Strings that fit.** -/
theorem addEach_ok {texts : List (List UInt8)} : ∀ {t : StrTab},
    t.data.length + bytesOf texts ≤ U32_MAX →
    ∃ offsets t', t.addEach hash texts = .ok (offsets, t') ∧
      t'.data.length ≤ t.data.length + bytesOf texts := by
  induction texts with
  | nil => exact fun _ => ⟨_, _, rfl, Nat.le_refl _⟩
  | cons text texts ih =>
    intro t h
    rw [bytesOf_cons] at h ⊢
    obtain ⟨offset, t', hadd, hle⟩ := @add_ok hash t text (by omega)
    obtain ⟨offsets, t'', heach, hle'⟩ := @ih t' (by omega)
    refine ⟨offset :: offsets, t'', ?_, by omega⟩
    rw [StrTab.addEach, hadd]
    show (StrTab.addEach hash t' texts >>= _) = _
    rw [heach]
    rfl

/-- **Strings that fit are added together.** -/
theorem addAll_ok {t : StrTab} {strings texts : List (List UInt8)} (ht : Sound hash t strings)
    {chunk : ℕ} (hchunk : 0 < chunk) (hnul : ∀ text ∈ texts, 0 ∉ text)
    (hlen : texts.length ≤ U32_MAX) (h : t.data.length + bytesOf texts ≤ U32_MAX) :
    ∃ offsets t', t.addAll hash chunk texts = .ok (offsets, t') ∧
      t'.data.length ≤ t.data.length + bytesOf texts := by
  obtain ⟨offsets, t', heach, hle⟩ := @addEach_ok hash _ _ h
  have hsim := addEach_spec ht.represents hnul
  rw [heach] at hsim
  obtain ⟨held, hspec, hrep⟩ := hsim.ok_inv
  have hall := addAll_spec ht.represents hchunk hnul hlen
  have hheld : addAllSpec strings texts = .ok (offsets, held) := by
    unfold addAllSpec
    rw [hspec]
    exact if_pos (by rw [← hrep.data_eq]; omega)
  rw [hheld] at hall
  generalize StrTab.addAll hash chunk t texts = result at hall
  cases hall with
  | ok a hrep' =>
    refine ⟨_, _, rfl, ?_⟩
    rw [hrep'.data_eq, ← hrep.data_eq]
    exact hle

/-- **Versions that fit.** -/
theorem putVerneed_ok {input : PlanInput} {needs : List Need} {first : ℕ} {files : List ℕ}
    (hcount : ∀ file ∈ files, (versionsOf needs file).length ≤ U16_MAX) : ∀ {t : StrTab},
    t.data.length + bytesOf (files.flatMap fun file =>
      input.needed_name file :: versionsOf needs file) ≤ U32_MAX →
    ∃ data t', input.putVerneed hash needs first t files = .ok (data, t') ∧
      t'.data.length ≤ t.data.length + bytesOf (files.flatMap fun file =>
        input.needed_name file :: versionsOf needs file) := by
  induction files with
  | nil => exact fun _ => ⟨_, _, rfl, Nat.le_refl _⟩
  | cons file rest ih =>
    intro t h
    obtain ⟨hfile, hrest⟩ := List.forall_mem_cons.mp hcount
    rw [List.flatMap_cons, bytesOf_append] at h ⊢
    obtain ⟨offsets, t', hadd, hle⟩ := @addEach_ok hash
      (input.needed_name file :: versionsOf needs file) t (by omega)
    obtain ⟨data, t'', hput, hle'⟩ := ih hrest (t := t') (by omega)
    rw [PlanInput.putVerneed, if_neg (Nat.not_lt.mpr hfile), hadd]
    show ∃ data t', (PlanInput.putVerneed input hash needs first _ rest >>= _) = .ok (data, t') ∧ _
    rw [hput]
    exact ⟨_, t'', rfl, by omega⟩

/-- **Definitions that fit.** -/
theorem addDefNames_ok {entries : List VerDefEntry} : ∀ {t : StrTab},
    t.data.length + bytesOf (entries.flatMap fun entry => entry.name :: entry.parents) ≤ U32_MAX →
    ∃ defs t', addDefNames hash t entries = .ok (defs, t') ∧ defs.map (·.1) = entries := by
  induction entries with
  | nil => exact fun _ => ⟨_, _, rfl, rfl⟩
  | cons entry rest ih =>
    intro t h
    rw [List.flatMap_cons, bytesOf_append] at h
    obtain ⟨offsets, t', hadd, hle⟩ := @addEach_ok hash (entry.name :: entry.parents) t
      (by omega)
    obtain ⟨defs, t'', hrest, hmap⟩ := ih (t := t') (by omega)
    refine ⟨(entry, offsets) :: defs, t'', ?_, by rw [List.map_cons, hmap]⟩
    rw [addDefNames, hadd]
    show (addDefNames hash t' rest >>= _) = _
    rw [hrest]
    rfl

theorem putVerdef_ok {kind : ElfKind} {defs : List (VerDefEntry × List ℕ)}
    (h : ∀ x ∈ defs, x.1.parents.length + 1 ≤ U16_MAX) :
    ∃ data, putVerdef kind defs = .ok data := by
  induction defs with
  | nil => exact ⟨_, rfl⟩
  | cons x rest ih =>
    obtain ⟨hx, hrest⟩ := List.forall_mem_cons.mp h
    obtain ⟨data, hput⟩ := ih hrest
    rw [putVerdef, if_neg (Nat.not_lt.mpr hx), hput]
    exact ⟨_, rfl⟩

namespace PlanInput

/-- The strings of the version tables. -/
def versionTexts (input : PlanInput) (needs : List Need) : List (List UInt8) :=
  ((needFiles needs).flatMap fun file => input.needed_name file :: versionsOf needs file) ++
    input.verDefEntries.flatMap fun entry => entry.name :: entry.parents

theorem verDefEntries_parents {input : PlanInput}
    (h : ∀ d ∈ input.defs, d.parents.length + 1 ≤ U16_MAX) :
    ∀ entry ∈ input.verDefEntries, entry.parents.length + 1 ≤ U16_MAX := by
  intro entry hentry
  rcases List.mem_cons.mp hentry with rfl | hentry
  · exact Nat.le_of_ble_eq_true rfl
  · obtain ⟨x, hx, rfl⟩ := List.mem_map.mp hentry
    have hd := List.mem_map_of_mem (f := Prod.fst) hx
    rw [List.zipIdx_map_fst] at hd
    exact h x.1 hd

/-- **A plan that succeeds.** -/
theorem planChosen_ok {input : PlanInput} {chunk : ℕ} (hchunk : 0 < chunk) (hnul : input.NulFree)
    {exports entries : List Entry} (hexports : input.exportEntries = .ok exports)
    (hentries : entries = input.imports.map .symbol ++
      (planHashed input.entry_name input.gnu exports).map (·.2.1))
    (hdefs : input.defs.length + 2 ≤ U16_MAX)
    (hcount : input.imports.length + exports.length + 1 ≤ U32_MAX)
    (hversions : (input.needList entries).length ≤ U16_MAX)
    (hparents : ∀ d ∈ input.defs, d.parents.length + 1 ≤ U16_MAX)
    (hbytes : bytesOf (input.strings ++ entries.map input.entry_name ++
      input.versionTexts (input.needList entries)) + 1 ≤ U32_MAX) :
    ∃ plan, input.planChosen hash chunk = .ok plan ∧ plan.entries = entries := by
  have hlength : (planHashed input.entry_name input.gnu exports).length = exports.length := by
    rw [(planHashed_perm input.entry_name input.gnu exports).length_eq, List.length_map]
  have hentriesLength : entries.length = input.imports.length + exports.length := by
    rw [hentries, List.length_append, List.length_map, List.length_map, hlength]
  have hnames : ∀ text ∈ entries.map input.entry_name, 0 ∉ text := by
    intro text htext
    obtain ⟨entry, _, rfl⟩ := List.mem_map.mp htext
    exact entry_name_nulFree hnul entry
  rw [versionTexts, bytesOf_append, bytesOf_append, bytesOf_append] at hbytes
  have hnew : StrTab.new.data.length = 1 := rfl
  obtain ⟨offsets, t₁, hstrings, hle₁⟩ := @addEach_ok hash input.strings StrTab.new
    (by omega)
  obtain ⟨strings, ht₁, _⟩ := addEach_sound sound_new hnul.strings hstrings
  obtain ⟨offsets', t₂, hadd, hle₂⟩ := addAll_ok ht₁ hchunk hnames
    (by rw [List.length_map]; omega) (by omega)
  obtain ⟨verneed, t₃, hverneed, hle₃⟩ := @putVerneed_ok hash input (input.needList entries)
    (input.defs.length + 2) (needFiles (input.needList entries))
    (fun file _ => (List.length_map _).le.trans ((List.length_filter_le _ _).trans hversions))
    t₂ (by omega)
  obtain ⟨gnuData, hgnu, _⟩ := @planGnuHash_visits input.entry_name
    (input.imports.map .symbol) exports input.gnu input.kind (by rw [List.length_map]; omega)
  obtain ⟨sysvData, hsysv, _⟩ := @planSysvHash_visits input.entry_name input.kind entries input.sysv
    input.wide_sysv_hash (by omega)
  have hhashes : input.hashTables exports entries = .ok (gnuData, sysvData) := by
    rw [hashTables, hgnu, hsysv]
    rfl
  have hfirst : input.firstNeedIndex = .ok (input.defs.length + 2) := by
    unfold firstNeedIndex
    split
    · next hnil => rw [hnil, List.length_nil]
    · rfl
  obtain ⟨verdef, t₄, hverdef⟩ : ∃ verdef t₄, input.verdef hash t₃ = .ok (verdef, t₄) := by
    unfold PlanInput.verdef
    split
    · exact ⟨_, _, rfl⟩
    · obtain ⟨defs, t₄, hdefNames, hmap⟩ := @addDefNames_ok hash input.verDefEntries t₃
        (by omega)
      obtain ⟨data, hput⟩ := @putVerdef_ok input.kind defs fun x hx => by
        have hentry : x.1 ∈ input.verDefEntries := by
          rw [← hmap]
          exact List.mem_map_of_mem hx
        exact verDefEntries_parents hparents x.1 hentry
      rw [hdefNames]
      show ∃ verdef t₄, (putVerdef input.kind defs >>= _) = .ok (verdef, t₄)
      rw [hput]
      exact ⟨_, _, rfl⟩
  refine ⟨{ entries
            gnu_hash := gnuData
            sysv_hash := sysvData
            versym := input.versym (input.needList entries) (input.defs.length + 2) entries
            verneed
            verneed_count := (needFiles (input.needList entries)).length
            verdef := verdef.1
            verdef_count := verdef.2
            dynstr := t₄.data }, ?_, rfl⟩
  have hfits : ¬U32_MAX < entries.length + 1 := by omega
  unfold planChosen
  simp only [hexports, bind, Except.bind, ← hentries, if_neg hfits, hfirst, hstrings, hadd, hhashes,
    hverneed, hverdef]

end PlanInput

end

end Qld.Elf.Dynsym
