import Qld.Elf.Dynsym.GnuHashCorrect

/-!
# Lookups in `.hash`

* `sysvVisits`, `walkSysv` — the lookup of the format: the bucket and its chain, up to 0;
* `Follows`, `SysvInv`, `sysvInsert_inv` — after every symbol, each bucket leads through
  its symbols, the last one first;
* `sysvVisits_spec` — a lookup visits each entry of its bucket once and ends at 0.
-/

namespace Qld.Elf.Dynsym

open Qld.Lib

/-! ### The lookup -/

/-- Follows a chain up to 0.  `none` behind the chain array. -/
def walkSysv (kind : ElfKind) (width : ℕ) (data : List UInt8) (chains : ℕ) :
    ℕ → ℕ → Option (List ℕ)
  | 0, _ => none
  | fuel + 1, index =>
    if index = 0 then some []
    else do
      let next ← kind.read width data (chains + width * index)
      let rest ← walkSysv kind width data chains fuel next
      some (index :: rest)

/-- The entries whose names a lookup compares, by their `.dynsym` indices. -/
def sysvVisits (kind : ElfKind) (width : ℕ) (data : List UInt8) (hash : ℕ) : Option (List ℕ) := do
  let nbucket ← kind.read width data 0
  let nchain ← kind.read width data width
  let first ← kind.read width data (width * (2 + hash % nbucket))
  walkSysv kind width data (width * (2 + nbucket)) (nchain + 1) first

/-! ### Chains -/

/-- From an index the chains lead through a list of indices, and then to 0. -/
def Follows (chains : List ℕ) : ℕ → List ℕ → Prop
  | index, [] => index = 0
  | index, i :: rest =>
    index = i ∧ i ≠ 0 ∧ ∃ next, chains[i]? = some next ∧ Follows chains next rest

variable {chains list : List ℕ} {at_ b width : ℕ}

theorem Follows.set {value : ℕ} :
    ∀ {index : ℕ}, Follows chains index list → at_ ∉ list →
      Follows (chains.set at_ value) index list := by
  induction list with
  | nil => exact fun h _ => h
  | cons i rest ih =>
    rintro index ⟨rfl, hne, next, hnext, hrest⟩ hnot
    refine ⟨rfl, hne, next, ?_, ih hrest (List.not_mem_of_not_mem_cons hnot)⟩
    rw [List.getElem?_set_ne (List.ne_of_not_mem_cons hnot), hnext]

/-- The indices of the first `k` symbols of a bucket, the last one first. -/
def bucketList (names : List (List UInt8)) (nbucket k b : ℕ) : List ℕ :=
  (((names.zipIdx).take k).filter fun x => sysvHash x.1 % nbucket = b).reverse.map (·.2 + 1)

/-- What the table has after the first `k` symbols. -/
structure SysvInv (names : List (List UInt8)) (nbucket k : ℕ) (table : SysvTable) : Prop where
  buckets_length : table.buckets.length = nbucket
  chains_length : table.chains.length = names.length + 1
  buckets_le : ∀ head ∈ table.buckets, head ≤ k
  chains_le : ∀ next ∈ table.chains, next ≤ k
  follows : ∀ b < nbucket, ∃ head, table.buckets[b]? = some head ∧
    Follows table.chains head (bucketList names nbucket k b)

variable {names : List (List UInt8)} {nbucket k : ℕ}

theorem bucketList_le {i : ℕ} (h : i ∈ bucketList names nbucket k b) : 0 < i ∧ i ≤ k := by
  obtain ⟨x, hx, rfl⟩ := List.mem_map.mp h
  obtain ⟨j, hj, hget⟩ :=
    List.mem_take_iff_getElem.mp (List.mem_filter.mp (List.mem_reverse.mp hx)).1
  have hindex : x.2 = j := by
    rw [← hget, List.getElem_zipIdx]
    exact Nat.zero_add j
  omega

variable {name : List UInt8}

theorem bucketList_succ (hname : names[k]? = some name) :
    bucketList names nbucket (k + 1) b =
      if sysvHash name % nbucket = b then (k + 1) :: bucketList names nbucket k b
      else bucketList names nbucket k b := by
  have hget : names.zipIdx[k]? = some (name, k) := by
    rw [List.getElem?_zipIdx, hname, Nat.zero_add]
    rfl
  unfold bucketList
  rw [List.take_add_one, hget, Option.toList_some, List.filter_append, List.reverse_append,
    List.map_append]
  by_cases h : sysvHash name % nbucket = b <;> simp [h]

variable {table : SysvTable}

/-- **One symbol.** -/
theorem sysvInsert_inv (hname : names[k]? = some name) (hbucket : 0 < nbucket)
    (hfits : names.length + 1 ≤ U32_MAX) (h : SysvInv names nbucket k table) :
    ∃ table', sysvInsert nbucket table (name, k) = .ok table' ∧
      SysvInv names nbucket (k + 1) table' := by
  have hlt := (List.getElem?_eq_some_iff.mp hname).1
  have hmod := Nat.mod_lt (sysvHash name) hbucket
  obtain ⟨head, hhead, hfollows⟩ := h.follows _ hmod
  have hheadLe := h.buckets_le head (List.mem_of_getElem? hhead)
  unfold sysvInsert
  dsimp only
  rw [if_neg (by omega), if_pos ⟨h.buckets_length ▸ hmod, by rw [h.chains_length]; omega⟩]
  refine ⟨_, rfl, ?_, ?_, ?_, ?_, ?_⟩
  · rw [List.length_set, h.buckets_length]
  · rw [List.length_set, h.chains_length]
  · intro value hvalue
    rcases List.mem_or_eq_of_mem_set hvalue with hold | rfl
    · exact Nat.le_succ_of_le (h.buckets_le value hold)
    · exact Nat.le_refl _
  · intro value hvalue
    rcases List.mem_or_eq_of_mem_set hvalue with hold | rfl
    · exact Nat.le_succ_of_le (h.chains_le value hold)
    · rw [List.getD_eq_getElem?_getD, hhead]
      exact Nat.le_succ_of_le hheadLe
  · intro b hb
    -- The new index is on the way from no bucket.
    have hnew : ∀ b', k + 1 ∉ bucketList names nbucket k b' := by
      intro b' hmem
      exact absurd (bucketList_le hmem).2 (Nat.not_succ_le_self k)
    rw [bucketList_succ hname, List.getElem?_set]
    by_cases hsame : sysvHash name % nbucket = b
    · subst hsame
      rw [if_pos rfl, if_pos (h.buckets_length ▸ hmod), if_pos rfl]
      refine ⟨k + 1, rfl, rfl, Nat.succ_ne_zero k, head, ?_, hfollows.set (hnew _)⟩
      rw [List.getElem?_set_self (by rw [h.chains_length]; omega), List.getD_eq_getElem?_getD,
        hhead]
      rfl
    · obtain ⟨other, hother, hway⟩ := h.follows b hb
      rw [if_neg hsame, if_neg hsame]
      exact ⟨other, hother, hway.set (hnew b)⟩

theorem sysvInv_new :
    SysvInv names nbucket 0
      { buckets := List.replicate nbucket 0, chains := List.replicate (names.length + 1) 0 } where
  buckets_length := List.length_replicate
  chains_length := List.length_replicate
  buckets_le head hhead := Nat.le_of_eq (List.eq_of_mem_replicate hhead)
  chains_le next hnext := Nat.le_of_eq (List.eq_of_mem_replicate hnext)
  follows b hb := by
    refine ⟨0, ?_, rfl⟩
    rw [List.getElem?_replicate, if_pos hb]

/-- **All symbols.** -/
theorem sysvFold_inv (hbucket : 0 < nbucket) (hfits : names.length + 1 ≤ U32_MAX)
    {rest : List (List UInt8)} :
    ∀ {k : ℕ} {table : SysvTable}, names.drop k = rest → SysvInv names nbucket k table →
    ∃ table', (rest.zipIdx k).foldlM (sysvInsert nbucket) table = .ok table' ∧
      SysvInv names nbucket (k + rest.length) table' := by
  induction rest with
  | nil => exact fun _ h => ⟨_, rfl, h⟩
  | cons name rest ih =>
    intro k table hdrop h
    obtain ⟨hget, hrest⟩ := drop_eq_cons hdrop
    obtain ⟨table', hstep, h'⟩ := sysvInsert_inv hget hbucket hfits h
    obtain ⟨table'', hfold, h''⟩ := ih hrest h'
    refine ⟨table'', ?_, ?_⟩
    · rw [List.zipIdx_cons, List.foldlM_cons, hstep]
      exact hfold
    · rw [List.length_cons, Nat.add_comm rest.length, ← Nat.add_assoc]
      exact h''

/-! ### The walk -/

variable {kind : ElfKind}

/-- Of `n` chain words, no way from an index is longer. -/
theorem walkSysv_spec {data : List UInt8} (hread : ∀ (i next : ℕ), chains[i]? = some next →
      kind.read width data (at_ + width * i) = some next) :
    ∀ {index fuel : ℕ}, Follows chains index list → list.length < fuel →
      walkSysv kind width data at_ fuel index = some list := by
  induction list with
  | nil =>
    rintro index fuel rfl hfuel
    obtain ⟨fuel, rfl⟩ := Nat.exists_eq_succ_of_ne_zero (Nat.ne_of_gt hfuel)
    rfl
  | cons i rest ih =>
    rintro index fuel ⟨rfl, hne, next, hnext, hrest⟩ hfuel
    obtain ⟨fuel, rfl⟩ := Nat.exists_eq_succ_of_ne_zero (Nat.ne_of_gt (Nat.zero_lt_of_lt hfuel))
    rw [List.length_cons] at hfuel
    rw [walkSysv, if_neg hne, hread index next hnext, Option.bind_eq_bind, Option.bind_some,
      ih hrest (by omega)]
    rfl

theorem length_bucketList_le (names : List (List UInt8)) (nbucket k b : ℕ) :
    (bucketList names nbucket k b).length ≤ names.length := by
  unfold bucketList
  rw [List.length_map, List.length_reverse]
  calc _ ≤ (names.zipIdx.take k).length := List.length_filter_le _ _
    _ ≤ names.zipIdx.length := List.length_take_le' _ _
    _ = names.length := List.length_zipIdx

/-! ### The bytes -/

/-- The parts of a table can be read from its bytes. -/
structure SysvBytes (kind : ElfKind) (width : ℕ) (data : List UInt8) (nbucket nchain : ℕ)
    (table : SysvTable) : Prop where
  nbucket_eq : kind.read width data 0 = some nbucket
  nchain_eq : kind.read width data width = some nchain
  buckets : ∀ b head, table.buckets[b]? = some head →
    kind.read width data (width * (2 + b)) = some head
  chains : ∀ (i next : ℕ), table.chains[i]? = some next →
    kind.read width data (width * (2 + nbucket) + width * i) = some next

theorem sysvBytes (hwidth : 2 ^ 32 ≤ 256 ^ width) (hnbucket : nbucket < 2 ^ 32)
    (hnchain : names.length + 1 < 2 ^ 32) (hk : k < 2 ^ 32) (h : SysvInv names nbucket k table) :
    SysvBytes kind width (kind.fields width [nbucket, names.length + 1] ++
      (kind.fields width table.buckets ++ kind.fields width table.chains)) nbucket
      (names.length + 1) table := by
  have hhead : (kind.fields width [nbucket, names.length + 1]).length = width * 2 := by simp
  refine ⟨?_, ?_, fun b head hb => ?_, fun i next hi => ?_⟩
  · exact ElfKind.read_fields [] 0 rfl (by omega)
  · have := @ElfKind.read_fields kind width []
      (kind.fields width table.buckets ++ kind.fields width table.chains)
      [nbucket, names.length + 1] 1 _ rfl (by omega)
    rwa [List.length_nil, Nat.zero_add, Nat.mul_one] at this
  · have hle := h.buckets_le head (List.mem_of_getElem? hb)
    rw [Nat.mul_add, ← hhead]
    exact ElfKind.read_fields _ b hb (by omega)
  · have hle := h.chains_le next (List.mem_of_getElem? hi)
    have hbefore : width * (2 + nbucket) = (kind.fields width [nbucket, names.length + 1] ++
        kind.fields width table.buckets).length := by
      rw [List.length_append, hhead, ElfKind.length_fields, h.buckets_length, Nat.mul_add]
    rw [hbefore, ← List.append_nil (kind.fields width table.chains), ← List.append_assoc]
    exact ElfKind.read_fields _ i hi (by omega)

theorem buildSysvHash_spec {kind : ElfKind} {names : List (List UInt8)} (wide : Bool)
    (hfits : names.length + 1 ≤ U32_MAX) :
    ∃ data table, buildSysvHash names kind wide = .ok data ∧
      SysvInv names (bucketCount names.length false) names.length table ∧
      SysvBytes kind (if wide then 8 else 4) data (bucketCount names.length false)
        (names.length + 1) table := by
  have hbounds := bucketCount_bounds names.length false
  have hrun : ∃ table, (names.zipIdx 0).foldlM (sysvInsert (bucketCount names.length false)) _ =
      .ok table ∧ SysvInv names (bucketCount names.length false) (0 + names.length) table :=
    sysvFold_inv hbounds.1 hfits List.drop_zero sysvInv_new
  obtain ⟨table, hfold, hinv⟩ := hrun
  rw [Nat.zero_add] at hinv
  have hwidth : 2 ^ 32 ≤ 256 ^ (if wide then 8 else 4) := by cases wide <;> decide
  have hmax : U32_MAX < 2 ^ 32 := by decide
  refine ⟨_, table, ?_, hinv,
    sysvBytes hwidth hbounds.2 (by omega) (by omega) hinv⟩
  unfold buildSysvHash
  dsimp only
  rw [if_neg (by omega), hfold]
  show Except.ok _ = Except.ok _
  rw [← ElfKind.fields_append]
  cases wide <;>
    simp [ElfKind.fields, ElfKind.e64, ElfKind.e32]

/-- **Lookups.**  The table is built, and a lookup visits exactly the symbols of its
bucket, each once, and ends at 0. -/
theorem sysvVisits_spec {kind : ElfKind} {names : List (List UInt8)} (wide : Bool)
    (hfits : names.length + 1 ≤ U32_MAX) :
    ∃ data, buildSysvHash names kind wide = .ok data ∧ ∀ hash,
      sysvVisits kind (if wide then 8 else 4) data hash =
        some (bucketList names (bucketCount names.length false) names.length
          (hash % bucketCount names.length false)) := by
  have hbounds := bucketCount_bounds names.length false
  obtain ⟨data, table, hbuild, hinv, hbytes⟩ := @buildSysvHash_spec kind names wide hfits
  refine ⟨data, hbuild, fun hash => ?_⟩
  obtain ⟨head, hhead, hfollows⟩ := hinv.follows _ (Nat.mod_lt hash hbounds.1)
  have hlength := length_bucketList_le names (bucketCount names.length false) names.length
    (hash % bucketCount names.length false)
  unfold sysvVisits
  rw [hbytes.nbucket_eq, hbytes.nchain_eq]
  simp only [Option.bind_eq_bind, Option.bind_some]
  rw [hbytes.buckets _ _ hhead, Option.bind_some]
  exact walkSysv_spec hbytes.chains hfollows (by omega)

end Qld.Elf.Dynsym
