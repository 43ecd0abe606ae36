import Qld.Elf.Dynsym.StrTabLeaders
import Qld.Elf.Dynsym.SysvHashCorrect

/-!
# The hash tables of a plan

* `dynsymName`, `gnuLookup` — the names of `.dynsym`, and the lookup of one in `.gnu.hash`;
* `planHashed_sorted` — the hashed entries are in bucket order;
* `mem_visited`, `visited_ascending`, `mem_bucketList`, `bucketList_nodup` — which
  entries the lookups visit;
* `planHash_lookups` — in the plan's tables lookups find every entry, and no other.
-/

namespace Qld.Elf.Dynsym

open Qld.Lib

/-! ### Lookups by name -/

/-- The name of an entry of `.dynsym`; the null symbol is not looked up. -/
def dynsymName (entryName : Entry → List UInt8) (entries : List Entry) (index : ℕ) :
    Option (List UInt8) :=
  if index = 0 then none else entries[index - 1]?.map entryName

/-- The entries that a lookup of a name in `.gnu.hash` finds: those it visits that have the name. -/
def gnuLookup (kind : ElfKind) (data : List UInt8) (nameAt : ℕ → Option (List UInt8))
    (name : List UInt8) : Option (List ℕ) :=
  (gnuVisits kind data (gnuHash name)).map fun visits =>
    visits.filter fun index => nameAt index = some name

/-! ### Hashed entries -/

theorem gnuHash_lt (name : List UInt8) : gnuHash name < 2 ^ 32 := by
  unfold gnuHash
  rcases List.eq_nil_or_concat name with rfl | ⟨init, last, rfl⟩
  · decide
  · rw [List.concat_eq_append, List.foldl_append]
    exact Nat.mod_lt _ (Nat.two_pow_pos 32)

theorem hashedLE_iff {a b : ℕ × Entry × ℕ} : hashedLE a b = true ↔
    a.2.2 < b.2.2 ∨ a.2.2 = b.2.2 ∧ pairLE a.2.1.key b.2.1.key = true := by
  simp [hashedLE]

theorem mergeSort_hashedLE (xs : List (ℕ × Entry × ℕ)) :
    (xs.mergeSort hashedLE).Pairwise fun a b => hashedLE a b = true := by
  refine List.pairwise_mergeSort (fun a b c hab hbc => ?_) (fun a b => ?_) xs
  · rw [hashedLE_iff, pairLE_iff] at hab hbc ⊢
    omega
  · rw [Bool.or_eq_true, hashedLE_iff, hashedLE_iff, pairLE_iff, pairLE_iff]
    omega

theorem planHashed_perm (entryName : Entry → List UInt8) (gnu : Bool) (exports : List Entry) :
    (planHashed entryName gnu exports).Perm (exports.map fun entry =>
      (gnuHash (entryName entry), entry,
        gnuHash (entryName entry) % planBuckets gnu exports)) := by
  unfold planHashed
  cases gnu with
  | false => exact List.Perm.refl _
  | true => exact List.mergeSort_perm _ _

theorem mem_planHashed {entryName : Entry → List UInt8} {gnu : Bool} {exports : List Entry}
    {x : ℕ × Entry × ℕ} (h : x ∈ planHashed entryName gnu exports) :
    x.1 = gnuHash (entryName x.2.1) ∧ x.2.2 = x.1 % planBuckets gnu exports := by
  obtain ⟨entry, _, rfl⟩ := List.mem_map.mp ((planHashed_perm entryName gnu exports).mem_iff.mp h)
  exact ⟨rfl, rfl⟩

/-- **The order.** -/
theorem planHashed_sorted (entryName : Entry → List UInt8) (exports : List Entry) :
    (planHashed entryName true exports).Pairwise fun a b =>
      a.1 % planBuckets true exports ≤ b.1 % planBuckets true exports := by
  have hsorted : (planHashed entryName true exports).Pairwise fun a b => hashedLE a b = true :=
    mergeSort_hashedLE _
  refine hsorted.imp_of_mem fun {a b} ha hb hab => ?_
  rw [← (mem_planHashed ha).2, ← (mem_planHashed hb).2]
  rw [hashedLE_iff] at hab
  omega

/-! ### What the lookups visit -/

theorem mem_visited {nbuckets symoffset hash : ℕ} {hashed : List (ℕ × List UInt8)} {index : ℕ} :
    index ∈ visited nbuckets symoffset hash hashed.zipIdx ↔
      ∃ p e, hashed[p]? = some e ∧ index = p + symoffset ∧
        e.1 % nbuckets = hash % nbuckets ∧ e.1 / 2 = hash / 2 := by
  unfold visited
  rw [List.mem_map]
  constructor
  · rintro ⟨x, hx, rfl⟩
    obtain ⟨hmem, hsame⟩ := List.mem_filter.mp hx
    exact ⟨x.2, x.1, List.mem_zipIdx_iff_getElem?.mp hmem, rfl, of_decide_eq_true hsame⟩
  · rintro ⟨p, e, hget, rfl, hsame⟩
    exact ⟨(e, p), List.mem_filter.mpr
      ⟨List.mem_zipIdx_iff_getElem?.mpr hget, decide_eq_true hsame⟩, rfl⟩

theorem visited_ascending (nbuckets symoffset hash : ℕ) (hashed : List (ℕ × List UInt8)) :
    (visited nbuckets symoffset hash hashed.zipIdx).Pairwise (· < ·) := by
  have hindex : (hashed.zipIdx.map (·.2)).Pairwise (· < ·) := by
    rw [List.zipIdx_map_snd]
    exact List.pairwise_lt_range'
  unfold visited
  rw [List.pairwise_map] at hindex ⊢
  exact (hindex.sublist List.filter_sublist).imp fun h => Nat.add_lt_add_right h symoffset

theorem mem_bucketList {names : List (List UInt8)} {nbucket b index : ℕ} :
    index ∈ bucketList names nbucket names.length b ↔
      ∃ p name, names[p]? = some name ∧ index = p + 1 ∧ sysvHash name % nbucket = b := by
  unfold bucketList
  rw [List.take_of_length_le (Nat.le_of_eq List.length_zipIdx), List.mem_map]
  constructor
  · rintro ⟨x, hx, rfl⟩
    obtain ⟨hmem, hsame⟩ := List.mem_filter.mp (List.mem_reverse.mp hx)
    exact ⟨x.2, x.1, List.mem_zipIdx_iff_getElem?.mp hmem, rfl, of_decide_eq_true hsame⟩
  · rintro ⟨p, name, hget, rfl, hsame⟩
    exact ⟨(name, p), List.mem_reverse.mpr (List.mem_filter.mpr
      ⟨List.mem_zipIdx_iff_getElem?.mpr hget, decide_eq_true hsame⟩), rfl⟩

theorem bucketList_nodup (names : List (List UInt8)) (nbucket k b : ℕ) :
    (bucketList names nbucket k b).Nodup := by
  have hindex : (names.zipIdx.map (·.2)).Pairwise (· < ·) := by
    rw [List.zipIdx_map_snd]
    exact List.pairwise_lt_range'
  unfold bucketList
  rw [List.map_reverse, List.nodup_reverse]
  rw [List.pairwise_map] at hindex
  refine List.pairwise_map.mpr ?_
  exact ((hindex.sublist (List.take_sublist _ _)).sublist List.filter_sublist).imp
    fun h => Nat.ne_of_lt (Nat.add_lt_add_right h 1)

/-! ### The plan -/

section

variable {entryName : Entry → List UInt8} {imports exports : List Entry} {gnu : Bool}

/-- The names at and behind the first hashed entry are those of the hashed entries. -/
theorem dynsymName_hashed {index : ℕ} {name : List UInt8} :
    imports.length + 1 ≤ index ∧ dynsymName entryName
        (imports ++ (planHashed entryName gnu exports).map (·.2.1)) index = some name ↔
      ∃ p, ((planHashed entryName gnu exports).map fun x => (x.1, entryName x.2.1))[p]? =
        some (gnuHash name, name) ∧ index = p + (imports.length + 1) := by
  constructor
  · rintro ⟨hle, hname⟩
    obtain ⟨p, rfl⟩ := Nat.exists_eq_add_of_le' hle
    rw [dynsymName, if_neg (by omega), ← Nat.add_assoc, Nat.add_sub_cancel, Nat.add_comm p,
      List.getElem?_append_right (Nat.le_add_right _ _), Nat.add_sub_cancel_left,
      List.getElem?_map, Option.map_map] at hname
    obtain ⟨x, hx, rfl⟩ := Option.map_eq_some_iff.mp hname
    refine ⟨p, ?_, rfl⟩
    rw [List.getElem?_map, hx]
    exact congrArg some (Prod.ext (mem_planHashed (List.mem_of_getElem? hx)).1 rfl)
  · rintro ⟨p, hget, rfl⟩
    refine ⟨Nat.le_add_left _ _, ?_⟩
    rw [List.getElem?_map] at hget
    obtain ⟨x, hx, heq⟩ := Option.map_eq_some_iff.mp hget
    rw [dynsymName, if_neg (by omega), ← Nat.add_assoc, Nat.add_sub_cancel, Nat.add_comm p,
      List.getElem?_append_right (Nat.le_add_right _ _), Nat.add_sub_cancel_left,
      List.getElem?_map, Option.map_map, hx]
    exact congrArg some (congrArg Prod.snd heq)

theorem dynsymName_iff {entries : List Entry} {index : ℕ} {name : List UInt8} :
    dynsymName entryName entries index = some name ↔
      ∃ p, (entries.map entryName)[p]? = some name ∧ index = p + 1 := by
  unfold dynsymName
  rw [← List.getElem?_map]
  cases index with
  | zero => simp
  | succ p => simp

/-- **`.gnu.hash` of the plan.** -/
theorem gnuVisits_plan {kind : ElfKind} (hfits : imports.length + exports.length + 1 ≤ U32_MAX) :
    ∃ data, buildGnuHash ((planHashed entryName true exports).map fun x => (x.1, entryName x.2.1))
        (planBuckets true exports) imports.length kind = .ok data ∧
      ∀ name, ∃ visits, gnuVisits kind data (gnuHash name) = some visits ∧
        visits.Pairwise (· < ·) ∧
        ∀ index, index ∈ visits ↔ imports.length + 1 ≤ index ∧ ∃ other,
          dynsymName entryName
            (imports ++ (planHashed entryName true exports).map (·.2.1)) index = some other ∧
          gnuHash other % planBuckets true exports = gnuHash name % planBuckets true exports ∧
          gnuHash other / 2 = gnuHash name / 2 := by
  have hlength : (planHashed entryName true exports).length = exports.length := by
    rw [(planHashed_perm entryName true exports).length_eq, List.length_map]
  have hbounds := bucketCount_bounds exports.length true
  have hlt : ∀ e ∈ (planHashed entryName true exports).map fun x => (x.1, entryName x.2.1),
      e.1 < 2 ^ 32 := by
    intro e he
    obtain ⟨x, hx, rfl⟩ := List.mem_map.mp he
    show x.1 < 2 ^ 32
    rw [(mem_planHashed hx).1]
    exact gnuHash_lt _
  obtain ⟨data, hbuild, hvisits⟩ := @gnuVisits_spec kind _ (planBuckets true exports) imports.length
    (two_le_bucketCount exports.length) hbounds.2
    (by rw [List.length_map, hlength]; omega) hlt
    (List.pairwise_map.mpr (planHashed_sorted entryName exports))
  refine ⟨data, hbuild, fun name => ⟨_, hvisits _, visited_ascending _ _ _ _, fun index => ?_⟩⟩
  rw [mem_visited]
  constructor
  · rintro ⟨p, e, hget, rfl, hsame⟩
    have hhash : e = (gnuHash e.2, e.2) := by
      obtain ⟨x, hx, rfl⟩ := List.mem_map.mp (List.mem_of_getElem? hget)
      exact Prod.ext (mem_planHashed hx).1 rfl
    rw [hhash] at hget hsame
    obtain ⟨hle, hname⟩ := dynsymName_hashed.mpr ⟨p, hget, rfl⟩
    exact ⟨hle, e.2, hname, hsame⟩
  · rintro ⟨hle, other, hname, hsame⟩
    obtain ⟨p, hget, rfl⟩ := dynsymName_hashed.mp ⟨hle, hname⟩
    exact ⟨p, _, hget, rfl, hsame⟩

/-- **`.hash` of the plan.** -/
theorem sysvVisits_plan {kind : ElfKind} {entries : List Entry} (wide : Bool)
    (hfits : entries.length + 1 ≤ U32_MAX) :
    ∃ data, buildSysvHash (entries.map entryName) kind wide = .ok data ∧
      ∀ name, ∃ visits, sysvVisits kind (if wide then 8 else 4) data (sysvHash name) = some visits ∧
        visits.Nodup ∧
        ∀ index, index ∈ visits ↔ ∃ other, dynsymName entryName entries index = some other ∧
          sysvHash other % bucketCount entries.length false =
            sysvHash name % bucketCount entries.length false := by
  obtain ⟨data, hbuild, hvisits⟩ := @sysvVisits_spec kind (entries.map entryName) wide
    (by rwa [List.length_map])
  refine ⟨data, hbuild, fun name => ⟨_, hvisits _, bucketList_nodup _ _ _ _, fun index => ?_⟩⟩
  rw [mem_bucketList, List.length_map]
  simp only [dynsymName_iff]
  constructor
  · rintro ⟨p, other, hget, rfl, hsame⟩
    exact ⟨other, ⟨p, hget, rfl⟩, hsame⟩
  · rintro ⟨other, ⟨p, hget, rfl⟩, hsame⟩
    exact ⟨p, other, hget, rfl, hsame⟩

theorem planGnuHash_visits {kind : ElfKind}
    (hfits : imports.length + exports.length + 1 ≤ U32_MAX) :
    ∃ data, planGnuHash entryName imports exports gnu kind = .ok data ∧
      (gnu = true → ∀ name, ∃ visits, gnuVisits kind data (gnuHash name) = some visits ∧
        visits.Pairwise (· < ·) ∧
        ∀ index, index ∈ visits ↔ imports.length + 1 ≤ index ∧ ∃ other,
          dynsymName entryName
            (imports ++ (planHashed entryName gnu exports).map (·.2.1)) index = some other ∧
          gnuHash other % planBuckets gnu exports = gnuHash name % planBuckets gnu exports ∧
          gnuHash other / 2 = gnuHash name / 2) := by
  cases gnu with
  | false => exact ⟨[], rfl, fun h => Bool.noConfusion h⟩
  | true =>
    obtain ⟨data, hbuild, hvisits⟩ := @gnuVisits_plan entryName imports exports kind hfits
    exact ⟨data, hbuild, fun _ => hvisits⟩

theorem planSysvHash_visits {kind : ElfKind} {entries : List Entry} {sysv : Bool} (wide : Bool)
    (hfits : entries.length + 1 ≤ U32_MAX) :
    ∃ data, planSysvHash (entries.map entryName) sysv kind wide = .ok data ∧
      (sysv = true → ∀ name, ∃ visits,
        sysvVisits kind (if wide then 8 else 4) data (sysvHash name) = some visits ∧ visits.Nodup ∧
        ∀ index, index ∈ visits ↔ ∃ other, dynsymName entryName entries index = some other ∧
          sysvHash other % bucketCount entries.length false =
            sysvHash name % bucketCount entries.length false) := by
  cases sysv with
  | false => exact ⟨[], rfl, fun h => Bool.noConfusion h⟩
  | true =>
    obtain ⟨data, hbuild, hvisits⟩ := @sysvVisits_plan entryName kind entries wide hfits
    exact ⟨data, hbuild, fun _ => hvisits⟩

/-- A lookup that visits the entries of the name's bucket finds those of the name. -/
theorem gnuLookup_of_visits {kind : ElfKind} {data name : List UInt8} {visits : List ℕ}
    {nameAt : ℕ → Option (List UInt8)} {first nbuckets : ℕ}
    (hvisits : gnuVisits kind data (gnuHash name) = some visits)
    (hmem : ∀ index, index ∈ visits ↔ first ≤ index ∧ ∃ other, nameAt index = some other ∧
      gnuHash other % nbuckets = gnuHash name % nbuckets ∧ gnuHash other / 2 = gnuHash name / 2) :
    ∃ found, gnuLookup kind data nameAt name = some found ∧
      ∀ index, index ∈ found ↔ first ≤ index ∧ nameAt index = some name := by
  refine ⟨visits.filter fun index => nameAt index = some name, ?_, fun index => ?_⟩
  · rw [gnuLookup, hvisits]
    rfl
  · rw [List.mem_filter, hmem, decide_eq_true_iff]
    constructor
    · rintro ⟨⟨hle, _⟩, hname⟩
      exact ⟨hle, hname⟩
    · rintro ⟨hle, hname⟩
      exact ⟨⟨hle, name, hname, rfl, rfl⟩, hname⟩

end

/-- **The plan (proved).**  A lookup in the `.gnu.hash` of a plan visits exactly the hashed entries
of the name's bucket that agree in the upper 31 bits of the hash, and finds exactly those of the
name; one in its `.hash` visits each entry of the name's bucket once, and ends at 0. -/
theorem planHash_lookups (entryName : Entry → List UInt8) (imports exports : List Entry)
    (gnu sysv : Bool) (kind : ElfKind) (wide : Bool)
    (hfits : imports.length + exports.length + 1 ≤ U32_MAX) :
    ∃ plan, planHash entryName imports exports gnu sysv kind wide = .ok plan ∧
      (∃ hashed, plan.entries = imports ++ hashed ∧ hashed.Perm exports) ∧
      (gnu = true → ∀ name,
        (∃ visits, gnuVisits kind plan.gnu_hash (gnuHash name) = some visits ∧
          visits.Pairwise (· < ·) ∧
          ∀ index, index ∈ visits ↔ imports.length + 1 ≤ index ∧ ∃ other,
            dynsymName entryName plan.entries index = some other ∧
            gnuHash other % planBuckets gnu exports = gnuHash name % planBuckets gnu exports ∧
            gnuHash other / 2 = gnuHash name / 2) ∧
        ∃ found, gnuLookup kind plan.gnu_hash (dynsymName entryName plan.entries) name =
            some found ∧
          ∀ index, index ∈ found ↔
            imports.length + 1 ≤ index ∧ dynsymName entryName plan.entries index = some name) ∧
      (sysv = true → ∀ name, ∃ visits,
        sysvVisits kind (if wide then 8 else 4) plan.sysv_hash (sysvHash name) = some visits ∧
        visits.Nodup ∧
        ∀ index, index ∈ visits ↔ ∃ other,
          dynsymName entryName plan.entries index = some other ∧
          sysvHash other % bucketCount plan.entries.length false =
            sysvHash name % bucketCount plan.entries.length false) := by
  have hlength : (planHashed entryName gnu exports).length = exports.length := by
    rw [(planHashed_perm entryName gnu exports).length_eq, List.length_map]
  have hentries :
      (imports ++ (planHashed entryName gnu exports).map (·.2.1)).length + 1 ≤ U32_MAX := by
    rwa [List.length_append, List.length_map, hlength]
  obtain ⟨gnuData, hgnuData, hgnuVisits⟩ :=
    @planGnuHash_visits entryName imports exports gnu kind hfits
  obtain ⟨sysvData, hsysvData, hsysvVisits⟩ :=
    @planSysvHash_visits entryName kind _ sysv wide hentries
  refine ⟨⟨_, gnuData, sysvData⟩, ?_, ⟨_, rfl, ?_⟩, fun h name => ?_, hsysvVisits⟩
  · unfold planHash
    dsimp only
    rw [if_neg (Nat.not_lt.mpr hentries), hgnuData, hsysvData]
    rfl
  · have hperm := (planHashed_perm entryName gnu exports).map (·.2.1)
    rwa [List.map_map, show ((fun x : ℕ × Entry × ℕ => x.2.1) ∘ fun entry =>
      (gnuHash (entryName entry), entry, gnuHash (entryName entry) % planBuckets gnu exports)) =
        id from rfl, List.map_id] at hperm
  · obtain ⟨visits, hvisits, hascending, hmem⟩ := hgnuVisits h name
    exact ⟨⟨visits, hvisits, hascending, hmem⟩, gnuLookup_of_visits hvisits hmem⟩

/-- Two exports behind an import. -/
theorem planHash_lookups_three :
    ∃ plan, planHash (fun entry => [UInt8.ofNat entry.key.2]) [.symbol 97] [.symbol 98, .symbol 99]
        true true .elf64Le false = .ok plan ∧
      ∃ found, gnuLookup .elf64Le plan.gnu_hash
          (dynsymName (fun entry => [UInt8.ofNat entry.key.2]) plan.entries) [98] = some found ∧
        ∀ index, index ∈ found ↔ 2 ≤ index ∧
          dynsymName (fun entry => [UInt8.ofNat entry.key.2]) plan.entries index = some [98] := by
  obtain ⟨plan, hplan, _, hgnu, _⟩ :=
    planHash_lookups (fun entry => [UInt8.ofNat entry.key.2]) [.symbol 97] [.symbol 98, .symbol 99]
      true true .elf64Le false (by decide)
  exact ⟨plan, hplan, (hgnu rfl [98]).2⟩

end Qld.Elf.Dynsym
