import Qld.Symbols.ResolveRound

/-!
# What the rounds of resolution keep

The driver without a hook, on files that all load.

* `RefersTo`, `candidatesOf` — the references and the candidates of the files themselves;
* `StateInv`, `RoundInv` — what holds before and after a round;
* `resolveRound_base`, `resolveRound_inv`, `RoundInv.next` — a round keeps them, or the
  table overflows;
* `resolveRounds_ends` — as many rounds as there are files suffice;
* `resolveRounds_inv` — what a run leaves.
-/

namespace Qld.Symbols

open Qld.Lib SymbolTable

/-! ### References and candidates -/

/-- File `i` references `n` non-weakly. -/
def RefersTo (files : List ResolveFile) (i : ℕ) (n : SymbolName) : Prop :=
  ∃ k : ℕ, (fileAt files i).symbolNames[k]? = some n ∧
    (fileAt files i).symbolUse k = .reference false

/-- The lazy candidates of file `i` for `n`. -/
def lazyCandidates (memory : ℕ → UInt8) (files : List ResolveFile) (i : ℕ) (n : SymbolName) :
    Set Definition :=
  {d | ∃ k : ℕ, (lazyNamesOf memory (fileAt files i))[k]? = some n ∧ d = offered files i k .lazy 0}

/-- The definitions of `n` in file `i`. -/
def definitionsOf (files : List ResolveFile) (i : ℕ) (n : SymbolName) : Set Definition :=
  {d | ∃ (k : ℕ) (kind : DefinitionKind) (aux : UInt64),
    (fileAt files i).symbolNames[k]? = some n ∧
      (fileAt files i).symbolUse k = .definition kind aux ∧ kind ≠ .undefined ∧
      d = offered files i k kind aux}

/-- The candidates for `n`: the lazy ones of the files that are lazy at start, and the definitions
of the live files. -/
def candidatesOf (memory : ℕ → UInt8) (files : List ResolveFile) (live : ℕ → Bool)
    (n : SymbolName) : Set Definition :=
  {d | (∃ i < files.length, (fileAt files i).isLiveAtStart = false ∧
      d ∈ lazyCandidates memory files i n) ∨
    ∃ i < files.length, live i = true ∧ d ∈ definitionsOf files i n}

/-- The rules of the resolver, as a relation. -/
abbrev Precedes (resolver : Resolver) (a b : Definition) : Prop :=
  takesPrecedence resolver a b = true

/-- The definition of a name in a table. -/
def definitionOf (t : SymbolTable) (n : SymbolName) : Definition := t.definition (t.names.idxOf n)

/-! ### The steps of a round -/

section Steps

variable {memory : ℕ → UInt8} {files : List ResolveFile} {load lazy : List ℕ}
  {ids lazyIds : ℕ → List ℕ} {names : List SymbolName}

theorem mem_workEntries {work : List Work} {e : Entry} :
    e ∈ workEntries work ↔
      ∃ w ∈ work, e.file = w.file ∧ e.lazy = w.lazy ∧ w.ids[e.symbol]? = some e.id := by
  rw [workEntries, List.mem_flatMap]
  constructor
  · intro ⟨w, hw, he⟩
    obtain ⟨⟨id, k⟩, hid, rfl⟩ := List.mem_map.mp he
    exact ⟨w, hw, rfl, rfl, List.mk_mem_zipIdx_iff_getElem?.mp hid⟩
  · intro ⟨w, hw, hfile, hlazy, hid⟩
    refine ⟨w, hw, List.mem_map.mpr ⟨(e.id, e.symbol),
      List.mk_mem_zipIdx_iff_getElem?.mpr hid, ?_⟩⟩
    rw [← hfile, ← hlazy]

theorem mem_roundEntries {e : Entry} :
    e ∈ workEntries (roundWork load lazy ids lazyIds) ↔
      (e.lazy = false ∧ e.file ∈ load ∧ (ids e.file)[e.symbol]? = some e.id) ∨
      (e.lazy = true ∧ e.file ∈ lazy ∧ (lazyIds e.file)[e.symbol]? = some e.id) := by
  rw [mem_workEntries]
  constructor
  · intro ⟨w, hw, hfile, hlazy, hid⟩
    rcases List.mem_append.mp hw with hw | hw
    · obtain ⟨i, hi, rfl⟩ := List.mem_map.mp hw
      rw [hfile]
      exact .inl ⟨hlazy, hi, hid⟩
    · obtain ⟨i, hi, rfl⟩ := List.mem_map.mp hw
      rw [hfile]
      exact .inr ⟨hlazy, hi, hid⟩
  · intro h
    rcases h with ⟨hlazy, hfile, hid⟩ | ⟨hlazy, hfile, hid⟩
    · exact ⟨_, List.mem_append_left _ (List.mem_map.mpr ⟨e.file, hfile, rfl⟩), rfl, hlazy, hid⟩
    · exact ⟨_, List.mem_append_right _ (List.mem_map.mpr ⟨e.file, hfile, rfl⟩), rfl, hlazy, hid⟩

/-- What the IDs of a round are. -/
structure RoundIds (memory : ℕ → UInt8) (files : List ResolveFile) (load lazy : List ℕ)
    (names : List SymbolName) (ids lazyIds : ℕ → List ℕ) : Prop where
  symbol : ∀ i ∈ load, ids i = (fileAt files i).symbolNames.map names.idxOf
  lazies : ∀ i ∈ lazy, lazyIds i = (lazyNamesOf memory (fileAt files i)).map names.idxOf
  known : ∀ n, RoundNames memory files load lazy n → n ∈ names

theorem getElem?_map_idxOf {xs names : List SymbolName} {k id : ℕ} :
    (xs.map names.idxOf)[k]? = some id ↔ ∃ m, xs[k]? = some m ∧ names.idxOf m = id := by
  rw [List.getElem?_map, Option.map_eq_some_iff]

theorem mem_steps_insert {e : Entry} {c : Definition} :
    MarkStep.insert e c ∈ (workEntries (roundWork load lazy ids lazyIds)).flatMap
        (entrySteps files) ↔
      e ∈ workEntries (roundWork load lazy ids lazyIds) ∧
        ((e.lazy = true ∧ c = offered files e.file e.symbol .lazy 0) ∨
          (e.lazy = false ∧ ∃ kind aux, (fileAt files e.file).symbolUse e.symbol =
            .definition kind aux ∧ c = offered files e.file e.symbol kind aux)) := by
  rw [List.mem_flatMap]
  constructor
  · intro ⟨e', he', hstep⟩
    rw [entrySteps] at hstep
    split at hstep
    · next hlazy =>
      simp only [List.mem_cons, MarkStep.insert.injEq, reduceCtorEq, List.not_mem_nil, or_false]
        at hstep
      obtain ⟨rfl, rfl⟩ := hstep
      exact ⟨he', .inl ⟨hlazy, rfl⟩⟩
    · next hlazy =>
      split at hstep
      · next kind aux huse =>
        simp only [List.mem_cons, MarkStep.insert.injEq, reduceCtorEq, List.not_mem_nil, or_false]
          at hstep
        obtain ⟨rfl, rfl⟩ := hstep
        exact ⟨he', .inr ⟨by simpa using hlazy, kind, aux, huse, rfl⟩⟩
      · simp at hstep
      · simp at hstep
      · simp at hstep
  · intro ⟨he, hcases⟩
    refine ⟨e, he, ?_⟩
    rw [entrySteps]
    rcases hcases with ⟨hlazy, rfl⟩ | ⟨hlazy, kind, aux, huse, rfl⟩
    · rw [if_pos hlazy]
      exact List.mem_cons_self
    · rw [if_neg (by simp [hlazy]), huse]
      exact List.mem_cons_self

theorem mem_steps_mark {id flags : ℕ} :
    MarkStep.mark id flags ∈ (workEntries (roundWork load lazy ids lazyIds)).flatMap
        (entrySteps files) ↔
      ∃ e ∈ workEntries (roundWork load lazy ids lazyIds), e.lazy = false ∧ e.id = id ∧
        ((flags = REFERENCED ∧ (fileAt files e.file).symbolUse e.symbol = .reference false) ∨
          (flags = WEAK_REFERENCED ∧
            (fileAt files e.file).symbolUse e.symbol = .reference true)) := by
  rw [List.mem_flatMap]
  constructor
  · intro ⟨e, he, hstep⟩
    rw [entrySteps] at hstep
    split at hstep
    · simp at hstep
    · next hlazy =>
      split at hstep
      · simp at hstep
      · next huse =>
        rw [List.mem_singleton, MarkStep.mark.injEq] at hstep
        exact ⟨e, he, by simpa using hlazy, hstep.1.symm, .inl ⟨hstep.2, huse⟩⟩
      · next huse =>
        rw [List.mem_singleton, MarkStep.mark.injEq] at hstep
        exact ⟨e, he, by simpa using hlazy, hstep.1.symm, .inr ⟨hstep.2, huse⟩⟩
      · simp at hstep
  · intro ⟨e, he, hlazy, hid, hcases⟩
    refine ⟨e, he, ?_⟩
    rw [entrySteps, if_neg (by simp [hlazy])]
    rcases hcases with ⟨rfl, huse⟩ | ⟨rfl, huse⟩
    · rw [huse, hid]
      exact List.mem_singleton_self _
    · rw [huse, hid]
      exact List.mem_singleton_self _

/-- **What a round offers to a name.** -/
theorem offersTo_steps (hids : RoundIds memory files load lazy names ids lazyIds) {n : SymbolName}
    (hn : n ∈ names) :
    offersTo (names.idxOf n) ((workEntries (roundWork load lazy ids lazyIds)).flatMap
        (entrySteps files)) =
      {d | (∃ i ∈ lazy, d ∈ lazyCandidates memory files i n) ∨
        ∃ i ∈ load, d ∈ definitionsOf files i n} := by
  ext d
  constructor
  · intro ⟨hd, e, he, hid⟩
    obtain ⟨hmem, hcases⟩ := mem_steps_insert.mp he
    rw [mem_roundEntries] at hmem
    rcases hcases with ⟨hlazy, rfl⟩ | ⟨hlazy, kind, aux, huse, rfl⟩
    · obtain ⟨-, hfile, hget⟩ := hmem.resolve_left fun h => by simp [hlazy] at h
      rw [hids.lazies _ hfile, getElem?_map_idxOf] at hget
      obtain ⟨m, hm, hidx⟩ := hget
      rw [hid] at hidx
      rw [← (List.idxOf_inj hn).mp hidx.symm] at hm
      exact .inl ⟨e.file, hfile, e.symbol, hm, rfl⟩
    · obtain ⟨-, hfile, hget⟩ := hmem.resolve_right fun h => by simp [hlazy] at h
      rw [hids.symbol _ hfile, getElem?_map_idxOf] at hget
      obtain ⟨m, hm, hidx⟩ := hget
      rw [hid] at hidx
      rw [← (List.idxOf_inj hn).mp hidx.symm] at hm
      refine .inr ⟨e.file, hfile, e.symbol, kind, aux, hm, huse, ?_, rfl⟩
      intro hkind
      rw [hkind] at hd
      exact absurd hd (by simp [offered, Definition.isDefined])
  · intro h
    rcases h with ⟨i, hi, k, hk, rfl⟩ | ⟨i, hi, k, kind, aux, hk, huse, hkind, rfl⟩
    · refine ⟨rfl, ⟨i, k, names.idxOf n, true⟩, mem_steps_insert.mpr ⟨mem_roundEntries.mpr
        (.inr ⟨rfl, hi, ?_⟩), .inl ⟨rfl, rfl⟩⟩, rfl⟩
      rw [hids.lazies i hi]
      exact getElem?_map_idxOf.mpr ⟨n, hk, rfl⟩
    · refine ⟨by simpa [Definition.isDefined, offered] using hkind,
        ⟨i, k, names.idxOf n, false⟩, mem_steps_insert.mpr ⟨mem_roundEntries.mpr
        (.inl ⟨rfl, hi, ?_⟩), .inr ⟨rfl, kind, aux, huse, rfl⟩⟩, rfl⟩
      rw [hids.symbol i hi]
      exact getElem?_map_idxOf.mpr ⟨n, hk, rfl⟩

/-- **What a round marks.** -/
theorem mark_mem_steps (hids : RoundIds memory files load lazy names ids lazyIds)
    {n : SymbolName} (hn : n ∈ names) :
    MarkStep.mark (names.idxOf n) REFERENCED ∈
        (workEntries (roundWork load lazy ids lazyIds)).flatMap (entrySteps files) ↔
      ∃ i ∈ load, RefersTo files i n := by
  rw [mem_steps_mark]
  constructor
  · intro ⟨e, he, hlazy, hid, hcases⟩
    obtain ⟨-, hfile, hget⟩ := (mem_roundEntries.mp he).resolve_right fun h => by
      simp [hlazy] at h
    rw [hids.symbol _ hfile, getElem?_map_idxOf] at hget
    obtain ⟨m, hm, hidx⟩ := hget
    rw [hid] at hidx
    rw [← (List.idxOf_inj hn).mp hidx.symm] at hm
    rcases hcases with ⟨-, huse⟩ | ⟨hflag, -⟩
    · exact ⟨e.file, hfile, e.symbol, hm, huse⟩
    · exact absurd hflag (by decide)
  · intro ⟨i, hi, k, hk, huse⟩
    refine ⟨⟨i, k, names.idxOf n, false⟩, mem_roundEntries.mpr (.inl ⟨rfl, hi, ?_⟩), rfl, rfl,
      .inl ⟨rfl, huse⟩⟩
    rw [hids.symbol i hi]
    exact getElem?_map_idxOf.mpr ⟨n, hk, rfl⟩

theorem entry_id_lt (hids : RoundIds memory files load lazy names ids lazyIds) {e : Entry}
    (he : e ∈ workEntries (roundWork load lazy ids lazyIds)) : e.id < names.length := by
  rcases mem_roundEntries.mp he with ⟨-, hfile, hget⟩ | ⟨-, hfile, hget⟩
  · rw [hids.symbol _ hfile, getElem?_map_idxOf] at hget
    obtain ⟨m, hm, hidx⟩ := hget
    rw [← hidx]
    exact List.idxOf_lt_length_of_mem
      (hids.known m (.inl ⟨e.file, hfile, List.mem_of_getElem? hm⟩))
  · rw [hids.lazies _ hfile, getElem?_map_idxOf] at hget
    obtain ⟨m, hm, hidx⟩ := hget
    rw [← hidx]
    exact List.idxOf_lt_length_of_mem
      (hids.known m (.inr ⟨e.file, hfile, List.mem_of_getElem? hm⟩))

theorem steps_valid (hids : RoundIds memory files load lazy names ids lazyIds) :
    ∀ step ∈ (workEntries (roundWork load lazy ids lazyIds)).flatMap (entrySteps files),
      step.Valid names.length := by
  intro step hstep
  obtain ⟨e, he, hmem⟩ := List.mem_flatMap.mp hstep
  have hlt := entry_id_lt hids he
  rw [entrySteps] at hmem
  split at hmem
  · simp only [List.mem_cons, List.not_mem_nil, or_false] at hmem
    rcases hmem with rfl | rfl
    · exact hlt
    · exact hlt
  · split at hmem
    · simp only [List.mem_cons, List.not_mem_nil, or_false] at hmem
      rcases hmem with rfl | rfl
      · exact hlt
      · exact hlt
    · rw [List.mem_singleton.mp hmem]
      exact ⟨hlt, .inl rfl⟩
    · rw [List.mem_singleton.mp hmem]
      exact ⟨hlt, .inr rfl⟩
    · exact absurd hmem List.not_mem_nil

end Steps

/-! ### The table under interning -/

section Growth

variable {hash : SymbolName → UInt64} {t t' : SymbolTable} {news : List SymbolName}

theorem idxOf_of_notMem {names : List SymbolName} {n : SymbolName} (hn : n ∉ names) :
    names.idxOf n = names.length := List.idxOf_eq_length hn

theorem getD_append_replicate {α : Type*} (l : List α) (k i : ℕ) (a : α) :
    (l ++ List.replicate k a).getD i a = l.getD i a := by
  by_cases hi : i < l.length
  · rw [List.getD_append _ _ _ _ hi]
  · rw [List.getD_append_right _ _ _ _ (Nat.le_of_not_lt hi),
      List.getD_eq_default l _ (Nat.le_of_not_lt hi), List.getD_eq_getElem?_getD,
      List.getElem?_replicate]
    split <;> rfl

/-- The state of a name does not change when names are appended. -/
theorem getD_idxOf_append {α : Type*} {l : List α} {names news : List SymbolName}
    (hlen : l.length = names.length) (n : SymbolName) (a : α) :
    l.getD ((names ++ news).idxOf n) a = l.getD (names.idxOf n) a := by
  by_cases hn : n ∈ names
  · rw [List.idxOf_append_of_mem hn]
  · rw [List.idxOf_append_of_notMem hn, idxOf_of_notMem hn, List.getD_eq_default l _ hlen.le,
      List.getD_eq_default l _ (by omega)]

theorem Interned.definitionOf_eq (h : Interned hash t news t') (hrep : Rep hash t)
    (n : SymbolName) : definitionOf t' n = definitionOf t n := by
  rw [definitionOf, definitionOf, definition, definition, h.defs, h.names, getD_append_replicate,
    getD_idxOf_append hrep.defs]

theorem Interned.isReferenced_eq (h : Interned hash t news t') (hrep : Rep hash t)
    (n : SymbolName) :
    isReferenced t' (t'.names.idxOf n) = isReferenced t (t.names.idxOf n) := by
  rw [isReferenced, isReferenced, flagsOf, flagsOf, h.flags, h.names, getD_append_replicate,
    getD_idxOf_append hrep.flags]

end Growth

/-! ### Rounds -/

section Rounds

/-- A file mentions a name. -/
def Mentioned (memory : ℕ → UInt8) (files : List ResolveFile) (n : SymbolName) : Prop :=
  ∃ i < files.length, n ∈ (fileAt files i).symbolNames ∨ n ∈ lazyNamesOf memory (fileAt files i)

/-- A table that grew from `start` by names that files mention. -/
structure GrownFrom (memory : ℕ → UInt8) (files : List ResolveFile) (start t : SymbolTable) :
    Prop where
  limit : t.limit = start.limit
  names : ∃ news, t.names = start.names ++ news ∧ ∀ n ∈ news, Mentioned memory files n

/-- What holds when a round starts, for every resolver. -/
structure StateBase (hash : SymbolName → UInt64) (memory : ℕ → UInt8) (files : List ResolveFile)
    (start : SymbolTable) (s : DriverState Unit) : Prop where
  grown : GrownFrom memory files start s.table
  same_files : s.files = files
  rep : Rep hash s.table
  live_lt : ∀ i, s.live i = true → i < files.length
  load_lt : ∀ i ∈ s.load, i < files.length ∧ s.live i = false
  lazy_lt : ∀ i ∈ s.lazy, i < files.length

/-- What holds when a round starts: `before` are the candidates that were offered so far. -/
structure StateInv (hash : SymbolName → UInt64) (memory : ℕ → UInt8) (resolver : Resolver)
    (files : List ResolveFile) (start : SymbolTable) (before : SymbolName → Set Definition)
    (s : DriverState Unit) : Prop extends StateBase hash memory files start s where
  ids : ∀ i, s.live i = true →
    s.symbolIds i = (fileAt files i).symbolNames.map s.table.names.idxOf ∧
      ∀ n ∈ (fileAt files i).symbolNames, n ∈ s.table.names
  best : ∀ n, HoldsBest (Precedes resolver) (before n) (cellOf (definitionOf s.table n))
  referenced : ∀ n, isReferenced s.table (s.table.names.idxOf n) = true ↔
    ∃ i, s.live i = true ∧ RefersTo files i n
  /-- The candidates that this round adds. -/
  cover : ∀ n, candidatesOf memory files (fun i => s.live i || decide (i ∈ s.load)) n =
    before n ∪ {d | (∃ i ∈ s.lazy, d ∈ lazyCandidates memory files i n) ∨
      ∃ i ∈ s.load, d ∈ definitionsOf files i n}
  /-- A reference of a live file no longer waits for a lazy definition. -/
  settled : ∀ n, (∃ i, s.live i = true ∧ RefersTo files i n) →
    (definitionOf s.table n).kind = .lazy →
      s.live (definitionOf s.table n).file = true ∨ (definitionOf s.table n).file ∈ s.load
  /-- Lazy names are offered before there is a reference. -/
  lazy_nil : (∃ i, s.live i = true) → s.lazy = []

/-- What holds when a round ends, for every resolver. -/
structure RoundBase (hash : SymbolName → UInt64) (memory : ℕ → UInt8) (files : List ResolveFile)
    (start : SymbolTable) (e : RoundEnd Unit) : Prop where
  grown : GrownFrom memory files start e.table
  same_files : e.files = files
  rep : Rep hash e.table
  live_lt : ∀ i, e.live i = true → i < files.length
  members_dead : ∀ m ∈ e.members, m < files.length ∧ e.live m = false
  members_sorted : e.members.Pairwise (· < ·)

/-- What holds when a round ends; `prev` are the files that were live when it started. -/
structure RoundInv (hash : SymbolName → UInt64) (memory : ℕ → UInt8) (resolver : Resolver)
    (files : List ResolveFile) (start : SymbolTable) (prev : ℕ → Bool) (e : RoundEnd Unit) :
    Prop extends RoundBase hash memory files start e where
  ids : ∀ i, e.live i = true →
    e.symbolIds i = (fileAt files i).symbolNames.map e.table.names.idxOf ∧
      ∀ n ∈ (fileAt files i).symbolNames, n ∈ e.table.names
  best : ∀ n, HoldsBest (Precedes resolver) (candidatesOf memory files e.live n)
    (cellOf (definitionOf e.table n))
  referenced : ∀ n, isReferenced e.table (e.table.names.idxOf n) = true ↔
    ∃ i, e.live i = true ∧ RefersTo files i n
  settled : ∀ n, (∃ i, prev i = true ∧ RefersTo files i n) →
    (definitionOf e.table n).kind = .lazy → e.live (definitionOf e.table n).file = true
  /-- A reference that waits for a lazy definition extracts its file. -/
  complete : ∀ n, (∃ i, e.live i = true ∧ RefersTo files i n) →
    (definitionOf e.table n).kind = .lazy → e.live (definitionOf e.table n).file = false →
      (definitionOf e.table n).file ∈ e.members
  sound : ∀ m ∈ e.members, ∃ n, (∃ i, e.live i = true ∧ RefersTo files i n) ∧
    (definitionOf e.table n).kind = .lazy ∧ (definitionOf e.table n).file = m

variable {hash : SymbolName → UInt64} {memory : ℕ → UInt8} {resolver : Resolver}
  {files : List ResolveFile} {sched : DriverSchedule} {before : SymbolName → Set Definition}
  {start : SymbolTable} {s : DriverState Unit}

theorem replaceFiles_self (files : List ResolveFile) (order : List ℕ) :
    replaceFiles files (order.zip ((order.map fun i => (i, fileAt files i)).map Prod.snd)) =
      files := by
  rw [replaceFiles, List.map_map]
  apply List.ext_getElem?
  intro i
  rw [List.getElem?_map, List.getElem?_zipIdx]
  cases hi : files[i]? with
  | none => rfl
  | some file =>
    simp only [Option.map_some, Nat.zero_add, Option.some.injEq]
    rw [← List.map_prod_left_eq_zip, lookup_graph]
    split
    · rw [Option.getD_some]
      show files.getD i default = file
      rw [List.getD_eq_getElem?_getD, hi, Option.getD_some]
    · rfl

theorem loadFiles_ok (hload : ∀ i, (fileAt files i).load = .ok ()) (load : List ℕ) :
    loadFiles files load = .ok () := by
  rw [loadFiles, List.findSome?_eq_none_iff.mpr]
  · rfl
  · intro i _
    rw [hload]

variable {t : SymbolTable} {load lazy : List ℕ} {lazyIds symbolIds : ℕ → List ℕ}
  {order : List MarkStep}

variable {ids : ℕ → List ℕ}

/-- Marks and offers in a table that holds the names of the round. -/
theorem marked_inv (hrep : Rep hash t) (hids : RoundIds memory files load lazy t.names ids lazyIds)
    (horder : order.Perm ((workEntries (roundWork load lazy ids lazyIds)).flatMap
      (entrySteps files)))
    (hbest : ∀ n, HoldsBest (Precedes resolver) (before n) (cellOf (definitionOf t n)))
    (htotal : ∀ n, StrictTotalOn (Precedes resolver)
      (before n ∪ {d | (∃ i ∈ lazy, d ∈ lazyCandidates memory files i n) ∨
        ∃ i ∈ load, d ∈ definitionsOf files i n})) :
    MarkInv resolver t (fun id => (t.names[id]?.map before).getD ∅) order
      (insertAndMark resolver t order) := by
  have hoffers : ∀ id, offersTo id order = offersTo id
      ((workEntries (roundWork load lazy ids lazyIds)).flatMap (entrySteps files)) := by
    intro id
    ext c
    simp only [offersTo, Set.mem_ofPred_eq, horder.mem_iff]
  have hindex : ∀ id n, t.names[id]? = some n → t.names.idxOf n = id := by
    intro id n hget
    have hid := (idOf_eq_some hrep.nodup).mpr hget
    rwa [idOf_of_mem (List.mem_of_getElem? hget), Option.some.injEq] at hid
  refine insertAndMark_inv order (by rw [hrep.flags, hrep.defs]) (fun step hstep => ?_)
    (fun id => ?_) fun id hlt => ?_
  · rw [hrep.defs]
    exact steps_valid hids step (horder.mem_iff.mp hstep)
  · rw [hoffers]
    cases hget : t.names[id]? with
    | some n =>
      rw [← hindex id n hget, offersTo_steps hids (List.mem_of_getElem? hget)]
      exact htotal n
    | none =>
      have hnone : offersTo id ((workEntries (roundWork load lazy ids lazyIds)).flatMap
          (entrySteps files)) = ∅ := by
        rw [Set.eq_empty_iff_forall_notMem]
        rintro c ⟨-, e, he, hid⟩
        have hlt := entry_id_lt hids (mem_steps_insert.mp he).1
        rw [List.getElem?_eq_none_iff] at hget
        omega
      rw [hnone]
      exact ⟨by simp, by simp, by simp⟩
  · rw [hrep.defs] at hlt
    have hget := List.getElem?_eq_getElem hlt
    have hb := hbest t.names[id]
    rw [definitionOf, hindex id _ hget] at hb
    rw [hget]
    exact hb

variable {t' : SymbolTable}

/-- The table after the marks is still represented. -/
theorem SameShape.rep (h : SameShape t t') (hrep : Rep hash t) :
    Rep hash t' := by
  refine ⟨?_, ?_, ?_, ?_⟩
  · rw [h.names, h.shards]
    exact hrep.toIndex
  · rw [h.names]
    exact hrep.len_le
  · rw [h.flags_length, h.names, hrep.flags]
  · rw [h.defs_length, h.names, hrep.defs]

/-- What a round does to the candidates and the marks of a name. -/
theorem marked_names {m : MarkState} (hrep : Rep hash t)
    (hids : RoundIds memory files load lazy t.names ids lazyIds)
    (horder : order.Perm ((workEntries (roundWork load lazy ids lazyIds)).flatMap
      (entrySteps files)))
    (hbest : ∀ n, HoldsBest (Precedes resolver) (before n) (cellOf (definitionOf t n)))
    (h : MarkInv resolver t (fun id => (t.names[id]?.map before).getD ∅) order m) (n : SymbolName) :
    HoldsBest (Precedes resolver)
        (before n ∪ {d | (∃ i ∈ lazy, d ∈ lazyCandidates memory files i n) ∨
          ∃ i ∈ load, d ∈ definitionsOf files i n})
        (cellOf (definitionOf m.table n)) ∧
      (isReferenced m.table (m.table.names.idxOf n) = true ↔
        isReferenced t (t.names.idxOf n) = true ∨ ∃ i ∈ load, RefersTo files i n) ∧
      (isReferenced t (t.names.idxOf n) = false → (∃ i ∈ load, RefersTo files i n) →
        t.names.idxOf n ∈ m.candidates) := by
  have hoffers : ∀ id, offersTo id order = offersTo id
      ((workEntries (roundWork load lazy ids lazyIds)).flatMap (entrySteps files)) := by
    intro id
    ext c
    simp only [offersTo, Set.mem_ofPred_eq, horder.mem_iff]
  have hknown : (∃ i ∈ load, RefersTo files i n) → n ∈ t.names := by
    rintro ⟨i, hi, k, hk, -⟩
    exact hids.known n (.inl ⟨i, hi, List.mem_of_getElem? hk⟩)
  by_cases hn : n ∈ t.names
  · have hlt := List.idxOf_lt_length_of_mem hn
    have hget : t.names[t.names.idxOf n]? = some n := by
      rw [List.getElem?_eq_getElem hlt, List.getElem_idxOf]
    refine ⟨?_, ?_, fun hnew href => ?_⟩
    · have hb := h.best (t.names.idxOf n) (by rwa [hrep.defs])
      rw [hget, Option.map_some, Option.getD_some, hoffers, offersTo_steps hids hn] at hb
      rw [definitionOf, h.names]
      exact hb
    · rw [h.names, h.referenced _ (by rwa [hrep.flags]), horder.mem_iff, mark_mem_steps hids hn]
    · exact h.complete _ (by rwa [hrep.flags]) hnew
        (horder.mem_iff.mpr ((mark_mem_steps hids hn).mpr href))
  · -- A name outside the table has no candidates and no references.
    have hempty : {d | (∃ i ∈ lazy, d ∈ lazyCandidates memory files i n) ∨
        ∃ i ∈ load, d ∈ definitionsOf files i n} = ∅ := by
      rw [Set.eq_empty_iff_forall_notMem]
      intro d hd
      rcases hd with ⟨i, hi, k, hk, -⟩ | ⟨i, hi, k, kind, aux, hk, -⟩
      · exact hn (hids.known n (.inr ⟨i, hi, List.mem_of_getElem? hk⟩))
      · exact hn (hids.known n (.inl ⟨i, hi, List.mem_of_getElem? hk⟩))
    have hundef : definitionOf m.table n = definitionOf t n := by
      rw [definitionOf, definitionOf, definition, definition, h.names, idxOf_of_notMem hn,
        List.getD_eq_default m.table.defs _ (by rw [h.defs_length, hrep.defs]),
        List.getD_eq_default t.defs _ (by rw [hrep.defs])]
    have hflags : ∀ {u : SymbolTable}, u.flags.length = t.names.length →
        isReferenced u t.names.length = false := by
      intro u hlen
      rw [isReferenced, flagsOf, List.getD_eq_default _ _ hlen.le]
      decide
    refine ⟨?_, ?_, fun _ href => absurd (hknown href) hn⟩
    · rw [hempty, Set.union_empty, hundef]
      exact hbest n
    · rw [h.names, idxOf_of_notMem hn, hflags (by rw [h.flags_length, hrep.flags]),
        hflags hrep.flags]
      constructor
      · intro hfalse
        exact absurd hfalse Bool.false_ne_true
      · intro hor
        exact absurd (hknown (hor.resolve_left Bool.false_ne_true)) hn

variable {news : List SymbolName}

theorem GrownFrom.interned (h : GrownFrom memory files start t)
    (hload : ∀ i ∈ load, i < files.length) (hlazy : ∀ i ∈ lazy, i < files.length)
    (hround : RoundInterned hash memory files load lazy t t' news symbolIds lazyIds)
    (hnodup : t'.names.Nodup) : GrownFrom memory files start t' := by
  obtain ⟨old, hold, hmention⟩ := h.names
  refine ⟨hround.interned.limit.trans h.limit, old ++ news, ?_, fun n hn => ?_⟩
  · rw [hround.interned.names, hold, List.append_assoc]
  · rcases List.mem_append.mp hn with hn | hn
    · exact hmention n hn
    · have hnot : n ∉ t.names := by
        rw [hround.interned.names] at hnodup
        exact fun hmem => (List.nodup_append.mp hnodup).2.2 n hmem n hn rfl
      have hmem : n ∈ t'.names := by
        rw [hround.interned.names]
        exact List.mem_append_right _ hn
      rcases ((hround.names n).mp hmem).resolve_left hnot with ⟨i, hi, hn⟩ | ⟨i, hi, hn⟩
      · exact ⟨i, hload i hi, .inl hn⟩
      · exact ⟨i, hlazy i hi, .inr hn⟩

variable {live prev : ℕ → Bool}

/-- A name has its candidate from a live file, or a lazy one. -/
theorem candidatesOf_mono {live' : ℕ → Bool} (h : ∀ i, live i = true → live' i = true)
    (n : SymbolName) : candidatesOf memory files live n ⊆ candidatesOf memory files live' n := by
  intro d hd
  rcases hd with hd | ⟨i, hi, hlive, hd⟩
  · exact .inl hd
  · exact .inr ⟨i, hi, h i hlive, hd⟩

variable {d : Definition}

theorem candidatesOf_file_lt {n : SymbolName} (hd : d ∈ candidatesOf memory files live n) :
    d.file < files.length := by
  rcases hd with ⟨i, hi, -, k, -, rfl⟩ | ⟨i, hi, -, k, kind, aux, -, -, -, rfl⟩
  · exact hi
  · exact hi

theorem isDefined_of_kind (h : d.kind = .lazy) : d.isDefined = true := by
  rw [Definition.isDefined, h]
  rfl

/-- A definition of a table is one of the candidates. -/
theorem isBest_of_isDefined {set : Set Definition}
    (h : HoldsBest (Precedes resolver) set (cellOf d)) (hd : d.isDefined = true) :
    IsBest (Precedes resolver) set d := by
  rw [cellOf, if_pos hd] at h
  exact h

theorem finite_mentioned (memory : ℕ → UInt8) (files : List ResolveFile) (names : List SymbolName) :
    {n | n ∉ names ∧ Mentioned memory files n}.Finite := by
  refine ((List.range files.length).flatMap fun i => (fileAt files i).symbolNames ++
    lazyNamesOf memory (fileAt files i)).finite_toSet.subset ?_
  intro n hn
  obtain ⟨-, i, hi, hmem⟩ := hn
  exact List.mem_flatMap.mpr ⟨i, List.mem_range.mpr hi, List.mem_append.mpr hmem⟩

/-- A table that overflows in some round has too many names in all. -/
theorem overflow_mentioned (hrep : Rep hash t) (hgrown : GrownFrom memory files start t)
    (hload : ∀ i ∈ load, i < files.length) (hlazy : ∀ i ∈ lazy, i < files.length)
    (hlt : t.limit - t.names.length <
      {n | n ∉ t.names ∧ RoundNames memory files load lazy n}.ncard) :
    start.limit - start.names.length <
      {n | n ∉ start.names ∧ Mentioned memory files n}.ncard := by
  obtain ⟨news, hnames, hmention⟩ := hgrown.names
  have hnodup := hrep.nodup
  rw [hnames, List.nodup_append] at hnodup
  have hround : ∀ n, RoundNames memory files load lazy n → Mentioned memory files n := by
    intro n hn
    rcases hn with ⟨i, hi, hn⟩ | ⟨i, hi, hn⟩
    · exact ⟨i, hload i hi, .inl hn⟩
    · exact ⟨i, hlazy i hi, .inr hn⟩
  have hsub : {n | n ∉ t.names ∧ RoundNames memory files load lazy n} ∪ news.toFinset ⊆
      {n | n ∉ start.names ∧ Mentioned memory files n} := by
    intro n hn
    rcases hn with ⟨hn, hr⟩ | hn
    · refine ⟨fun hmem => hn ?_, hround n hr⟩
      rw [hnames]
      exact List.mem_append_left _ hmem
    · rw [List.coe_toFinset] at hn
      exact ⟨fun hmem => hnodup.2.2 n hmem n hn rfl, hmention n hn⟩
  have hdisjoint : Disjoint {n | n ∉ t.names ∧ RoundNames memory files load lazy n}
      (news.toFinset : Set SymbolName) := by
    rw [Set.disjoint_left]
    intro n hn hmem
    rw [List.coe_toFinset] at hmem
    refine hn.1 ?_
    rw [hnames]
    exact List.mem_append_right _ hmem
  have hcard := Set.ncard_le_ncard hsub (finite_mentioned memory files start.names)
  rw [Set.ncard_union_eq hdisjoint ((finite_mentioned memory files t.names).subset
    fun n hn => ⟨hn.1, hround n hn.2⟩) (Finset.finite_toSet _), Set.ncard_coe_finset,
    List.toFinset_card_of_nodup hnodup.2.1] at hcard
  have hlen : t.names.length = start.names.length + news.length := by
    rw [hnames, List.length_append]
  have hlimit := hgrown.limit
  omega

theorem roundBase_of_interned (resolver : Resolver) (h : StateBase hash memory files start s)
    (hround : RoundInterned hash memory files s.load s.lazy s.table t news symbolIds lazyIds)
    (ids : ℕ → List ℕ) (order : List MarkStep) :
    RoundBase hash memory files start
      ⟨(), files, (insertAndMark resolver t order).table,
        fun i => s.live i || decide (i ∈ s.load), ids,
        membersOf resolver (insertAndMark resolver t order).table files.length
          (fun i => s.live i || decide (i ∈ s.load)) (insertAndMark resolver t order).candidates⟩ := by
  have hrep := hround.interned.rep
  have hshape := @insertAndMark_shape resolver t order
  refine ⟨?_, rfl, hshape.rep hrep, fun i hi => ?_, fun m hm => ?_, membersOf_sorted _⟩
  · have hgrown := h.grown.interned (fun i hi => (h.load_lt i hi).1) h.lazy_lt hround hrep.nodup
    obtain ⟨news, hnews, hmention⟩ := hgrown.names
    exact ⟨hshape.limit.trans hgrown.limit, news, hshape.names.trans hnews, hmention⟩
  · rw [Bool.or_eq_true, decide_eq_true_eq] at hi
    exact hi.elim (h.live_lt i) fun hi => (h.load_lt i hi).1
  · obtain ⟨-, -, -, -, -, hdead⟩ := mem_membersOf.mp hm
    exact hdead

/-- What the marks and offers of a round leave, name by name. -/
theorem roundInv_of_interned (h : StateInv hash memory resolver files start before s)
    (hextracts : ∀ d, resolver.extracts d = (d.kind == .lazy))
    (htotal : ∀ n, StrictTotalOn (Precedes resolver)
      (candidatesOf memory files (fun i => s.live i || decide (i ∈ s.load)) n))
    (hround : RoundInterned hash memory files s.load s.lazy s.table t news symbolIds lazyIds)
    (horder : order.Perm ((workEntries (roundWork s.load s.lazy
      (fun i => if i ∈ s.load then symbolIds i else s.symbolIds i) lazyIds)).flatMap
      (entrySteps files))) :
    RoundInv hash memory resolver files start s.live
      ⟨(), files, (insertAndMark resolver t order).table,
        fun i => s.live i || decide (i ∈ s.load),
        fun i => if i ∈ s.load then symbolIds i else s.symbolIds i,
        membersOf resolver (insertAndMark resolver t order).table files.length
          (fun i => s.live i || decide (i ∈ s.load)) (insertAndMark resolver t order).candidates⟩ := by
  have hrep := hround.interned.rep
  have hbase := roundBase_of_interned resolver h.toStateBase hround
    (fun i => if i ∈ s.load then symbolIds i else s.symbolIds i) order
  have hids : RoundIds memory files s.load s.lazy t.names
      (fun i => if i ∈ s.load then symbolIds i else s.symbolIds i) lazyIds := by
    refine ⟨fun i hi => ?_, hround.lazyIds, fun n hn => (hround.names n).mpr (.inr hn)⟩
    simp only [if_pos hi]
    exact hround.symbolIds i hi
  have hbest : ∀ n, HoldsBest (Precedes resolver) (before n) (cellOf (definitionOf t n)) := by
    intro n
    rw [hround.interned.definitionOf_eq h.rep]
    exact h.best n
  simp only [h.cover] at htotal
  have hmarks := marked_inv hrep hids horder hbest htotal
  have hnames := marked_names hrep hids horder hbest hmarks
  generalize insertAndMark resolver t order = m at hbase hmarks hnames ⊢
  have href : ∀ n, isReferenced m.table (m.table.names.idxOf n) = true ↔
      ∃ i, (s.live i || decide (i ∈ s.load)) = true ∧ RefersTo files i n := by
    intro n
    rw [(hnames n).2.1, hround.interned.isReferenced_eq h.rep, h.referenced]
    simp only [Bool.or_eq_true, decide_eq_true_eq, or_and_right, exists_or]
  have hholds : ∀ n, HoldsBest (Precedes resolver)
      (candidatesOf memory files (fun i => s.live i || decide (i ∈ s.load)) n)
      (cellOf (definitionOf m.table n)) := by
    intro n
    rw [h.cover]
    exact (hnames n).1
  have hfile : ∀ n, (definitionOf m.table n).kind = .lazy →
      (definitionOf m.table n).file < files.length := fun n hlazy =>
    candidatesOf_file_lt (isBest_of_isDefined (hholds n) (isDefined_of_kind hlazy)).1
  have hsettled : ∀ n, (∃ i, s.live i = true ∧ RefersTo files i n) →
      (definitionOf m.table n).kind = .lazy →
      (s.live (definitionOf m.table n).file ||
        decide ((definitionOf m.table n).file ∈ s.load)) = true := by
    intro n href hlazy
    rw [Bool.or_eq_true, decide_eq_true_eq]
    have hb := isBest_of_isDefined (hnames n).1 (isDefined_of_kind hlazy)
    have hnil := h.lazy_nil (href.imp fun i hi => hi.1)
    rcases hb.1 with hin | hin
    · -- A candidate that was there before is the one the reference waited for.
      have hold : HoldsBest (Precedes resolver) (before n)
          (some (definitionOf m.table n)) :=
        ⟨hin, fun a ha hne => hb.2 a (.inl ha) hne⟩
      have heq := HoldsBest.unique ((htotal n).mono Set.subset_union_left) (h.best n) hold
      rw [cellOf] at heq
      split at heq
      · rw [Option.some.injEq] at heq
        have hs := h.settled n href (heq ▸ hlazy)
        rwa [heq] at hs
      · exact absurd heq (by simp)
    · rw [hnil] at hin
      rcases hin with ⟨i, hi, -⟩ | ⟨i, hi, k, kind, aux, -, -, -, hd⟩
      · exact absurd hi List.not_mem_nil
      · rw [hd]
        exact .inr hi
  refine ⟨hbase, fun i hi => ?_, hholds, href, hsettled, fun n hn hlazy hdead => ?_,
    fun k hk => ?_⟩
  · simp only [hmarks.names]
    by_cases hmem : i ∈ s.load
    · rw [if_pos hmem, hround.symbolIds i hmem]
      exact ⟨rfl, fun n hn => hids.known n (.inl ⟨i, hmem, hn⟩)⟩
    · rw [if_neg hmem]
      rw [Bool.or_eq_true, decide_eq_true_eq] at hi
      obtain ⟨hold, hknown⟩ := h.ids i (hi.resolve_right hmem)
      refine ⟨?_, fun n hn => (hround.names n).mpr (.inl (hknown n hn))⟩
      rw [hold]
      refine List.map_congr_left fun n hn => ?_
      rw [hround.interned.names, List.idxOf_append_of_mem (hknown n hn)]
  · rw [mem_membersOf]
    refine ⟨t.names.idxOf n, ?_, ?_, ?_, ?_, hfile n hlazy, hdead⟩
    · have hnew : isReferenced t (t.names.idxOf n) = false := by
        by_contra hold
        rw [Bool.not_eq_false, hround.interned.isReferenced_eq h.rep, h.referenced] at hold
        exact absurd (hdead.symm.trans (hsettled n hold hlazy)) Bool.false_ne_true
      refine (hnames n).2.2 hnew ?_
      have hboth := (href n).mpr hn
      rw [(hnames n).2.1, hnew] at hboth
      exact hboth.resolve_left Bool.false_ne_true
    · rw [← hmarks.names]
      exact isDefined_of_kind hlazy
    · rw [hextracts, beq_iff_eq, ← hmarks.names]
      exact hlazy
    · rw [← hmarks.names]
      rfl
  · obtain ⟨id, hid, -, hext, hkfile, -⟩ := mem_membersOf.mp hk
    obtain ⟨hidlt, hidref⟩ := hmarks.sound id hid
    rw [hrep.flags, ← hmarks.names] at hidlt
    have hidx : m.table.names.idxOf m.table.names[id] = id :=
      (hmarks.rep hrep).nodup.idxOf_getElem id hidlt
    have hdef : definitionOf m.table m.table.names[id] = m.table.definition id := by
      rw [definitionOf, hidx]
    refine ⟨m.table.names[id], (href _).mp ?_, ?_, ?_⟩
    · rw [hidx]
      exact hidref
    · rw [hdef]
      rwa [hextracts, beq_iff_eq] at hext
    · rw [hdef, hkfile]

/-- **A round succeeds, or the table overflows.** -/
theorem resolveRound_base (h : StateBase hash memory files start s)
    (hload : ∀ i, (fileAt files i).load = .ok ()) (round : ℕ) :
    (∃ e, resolveRound hash memory resolver noHook sched round s = .ok e ∧
      RoundBase hash memory files start e ∧ e.live = fun i => s.live i || decide (i ∈ s.load)) ∨
    (resolveRound hash memory resolver noHook sched round s =
        .error (.table (overflow start.limit)) ∧
      start.limit - start.names.length <
        {n | n ∉ start.names ∧ Mentioned memory files n}.ncard) := by
  have hfiles := h.same_files
  rw [resolveRound, hfiles, loadFiles_ok hload]
  simp only [noHook, replaceFiles_self]
  rcases @internRound_spec hash memory files s.table h.rep (sched.intern round) s.load s.lazy with
    ⟨t, news, symbolIds, lazyIds, hresult, hround⟩ | ⟨hresult, hlt⟩
  · left
    rw [hresult]
    exact ⟨_, rfl, roundBase_of_interned resolver h hround _ _, rfl⟩
  · right
    rw [hresult, h.grown.limit]
    exact ⟨rfl, overflow_mentioned h.rep h.grown (fun i hi => (h.load_lt i hi).1) h.lazy_lt hlt⟩

variable {round : ℕ} {e : RoundEnd Unit}

/-- **A round that succeeds keeps the invariant.** -/
theorem resolveRound_inv (h : StateInv hash memory resolver files start before s)
    (hload : ∀ i, (fileAt files i).load = .ok ())
    (hextracts : ∀ d, resolver.extracts d = (d.kind == .lazy))
    (htotal : ∀ n, StrictTotalOn (Precedes resolver)
      (candidatesOf memory files (fun i => s.live i || decide (i ∈ s.load)) n))
    (he : resolveRound hash memory resolver noHook sched round s = .ok e) :
    RoundInv hash memory resolver files start s.live e := by
  have hfiles := h.same_files
  rw [resolveRound, hfiles, loadFiles_ok hload] at he
  simp only [noHook, replaceFiles_self] at he
  rcases @internRound_spec hash memory files s.table h.rep (sched.intern round) s.load s.lazy with
    ⟨t, news, symbolIds, lazyIds, hresult, hround⟩ | ⟨hresult, -⟩
  · rw [hresult, Except.ok.injEq] at he
    rw [← he]
    exact roundInv_of_interned h hextracts htotal hround (sched.marks_perm round _)
  · rw [hresult] at he
    exact absurd he (by simp)

/-- After a round that extracts members, the next can start. -/
theorem RoundBase.next (h : RoundBase hash memory files start e) :
    StateBase hash memory files start e.next :=
  ⟨h.grown, h.same_files, h.rep, h.live_lt, h.members_dead, fun _ hi => absurd hi List.not_mem_nil⟩

/-- **After a round that extracts members, the next can start.** -/
theorem RoundInv.next (h : RoundInv hash memory resolver files start prev e) :
    StateInv hash memory resolver files start (candidatesOf memory files e.live) e.next := by
  refine ⟨h.toRoundBase.next, h.ids, h.best, h.referenced, fun n => ?_, fun n hn hlazy => ?_,
    fun _ => rfl⟩
  · ext d
    show d ∈ candidatesOf memory files (fun i => e.live i || decide (i ∈ e.members)) n ↔ _
    constructor
    · intro hd
      rcases hd with hd | ⟨i, hi, hlive, hd⟩
      · exact .inl (.inl hd)
      · rw [Bool.or_eq_true, decide_eq_true_eq] at hlive
        rcases hlive with hlive | hmem
        · exact .inl (.inr ⟨i, hi, hlive, hd⟩)
        · exact .inr (.inr ⟨i, hmem, hd⟩)
    · intro hd
      rcases hd with hd | ⟨i, hi, -⟩ | ⟨i, hi, hd⟩
      · exact candidatesOf_mono (fun i hi => by rw [hi, Bool.true_or]) n hd
      · exact absurd hi List.not_mem_nil
      · refine .inr ⟨i, (h.members_dead i hi).1, ?_, hd⟩
        rw [Bool.or_eq_true, decide_eq_true_eq]
        exact .inr hi
  · show e.live _ = true ∨ _ ∈ e.members
    by_cases hlive : e.live (definitionOf e.table n).file = true
    · exact .inl hlive
    · exact .inr (h.complete n hn hlazy (by simpa using hlive))

/-- A table in which nothing was resolved yet. -/
structure Unresolved (hash : SymbolName → UInt64) (t : SymbolTable) : Prop where
  rep : Rep hash t
  definition : ∀ id, t.definition id = .undefined
  referenced : ∀ id, isReferenced t id = false

theorem StateInv.initial {t : SymbolTable} (h : Unresolved hash t) :
    StateInv hash memory resolver files t (fun _ => ∅) (initialState () files t) := by
  have hload : ∀ i, i ∈ (initialState () files t).load ↔
      i < files.length ∧ (fileAt files i).isLiveAtStart = true := fun i => by
    rw [initialState, List.mem_filter, List.mem_range]
  have hlazy : ∀ i, i ∈ (initialState () files t).lazy ↔
      i < files.length ∧ (fileAt files i).isLiveAtStart = false := fun i => by
    rw [initialState, List.mem_filter, List.mem_range, Bool.not_eq_true']
  have hdead : ∀ i, (initialState () files t).live i ≠ true := fun i => Bool.false_ne_true
  refine ⟨⟨⟨rfl, [], (List.append_nil _).symm, fun n hn => absurd hn List.not_mem_nil⟩, rfl, h.rep,
    fun i hi => absurd hi (hdead i), fun i hi => ⟨((hload i).mp hi).1, rfl⟩,
    fun i hi => ((hlazy i).mp hi).1⟩, fun i hi => absurd hi (hdead i), fun n => ?_, fun n => ?_,
    fun n => ?_, fun n hn => ?_, fun hlive => ?_⟩
  · show HoldsBest _ ∅ (cellOf (t.definition _))
    rw [h.definition]
    rfl
  · show isReferenced t _ = true ↔ _
    rw [h.referenced]
    constructor
    · intro hfalse
      exact absurd hfalse Bool.false_ne_true
    · intro ⟨i, hi, _⟩
      exact absurd hi (hdead i)
  · rw [Set.empty_union]
    ext d
    constructor
    · intro hd
      rcases hd with ⟨i, hi, hlive, hd⟩ | ⟨i, hi, hlive, hd⟩
      · exact .inl ⟨i, (hlazy i).mpr ⟨hi, hlive⟩, hd⟩
      · rw [Bool.or_eq_true, decide_eq_true_eq] at hlive
        exact .inr ⟨i, hlive.resolve_left (hdead i), hd⟩
    · intro hd
      rcases hd with ⟨i, hi, hd⟩ | ⟨i, hi, hd⟩
      · exact .inl ⟨i, ((hlazy i).mp hi).1, ((hlazy i).mp hi).2, hd⟩
      · refine .inr ⟨i, ((hload i).mp hi).1, ?_, hd⟩
        rw [Bool.or_eq_true, decide_eq_true_eq]
        exact .inr hi
  · obtain ⟨i, hi, -⟩ := hn
    exact absurd hi (hdead i)
  · obtain ⟨i, hi⟩ := hlive
    exact absurd hi (hdead i)

/-! ### Runs -/

/-- The rounds of a run, from the files live before and those to load. -/
def RunInv (hash : SymbolName → UInt64) (memory : ℕ → UInt8) (resolver : Resolver)
    (files : List ResolveFile) (start : SymbolTable) :
    (ℕ → Bool) → List ℕ → List (RoundEnd Unit) → Prop
  | _, _, [] => False
  | live, load, e :: rounds =>
    RoundInv hash memory resolver files start live e ∧
      e.live = (fun i => live i || decide (i ∈ load)) ∧
      ((rounds = [] ∧ e.members = []) ∨
        (e.members ≠ [] ∧ RunInv hash memory resolver files start e.live e.members rounds))

/-- The files that are neither live nor about to be loaded. -/
def waiting (files : List ResolveFile) (live : ℕ → Bool) (load : List ℕ) : Finset ℕ :=
  (Finset.range files.length).filter fun i => (live i || decide (i ∈ load)) = false

/-- A round that extracts leaves fewer files waiting. -/
theorem waiting_lt (h : RoundBase hash memory files start e)
    (hlive : e.live = fun i => prev i || decide (i ∈ load)) (hne : e.members ≠ []) :
    (waiting files e.live e.members).card < (waiting files prev load).card := by
  obtain ⟨m, hm⟩ := List.exists_mem_of_ne_nil _ hne
  obtain ⟨hlt, hdead⟩ := h.members_dead m hm
  apply Finset.card_lt_card
  rw [Finset.ssubset_iff_of_subset]
  · refine ⟨m, ?_, ?_⟩
    · rw [waiting, Finset.mem_filter, Finset.mem_range]
      rw [hlive] at hdead
      exact ⟨hlt, hdead⟩
    · rw [waiting, Finset.mem_filter]
      intro hmem
      simp [hm] at hmem
  · intro i hi
    rw [waiting, Finset.mem_filter, Bool.or_eq_false_iff] at hi
    rw [waiting, Finset.mem_filter]
    have hdead' := hi.2.1
    rw [hlive] at hdead'
    exact ⟨hi.1, hdead'⟩

/-- **The rounds come to an end.** -/
theorem resolveRounds_ends (hload : ∀ i, (fileAt files i).load = .ok ()) (fuel : ℕ) :
    ∀ (round : ℕ) (s : DriverState Unit), StateBase hash memory files start s →
      (waiting files s.live s.load).card < fuel →
      (∃ rounds last, resolveRounds hash memory resolver noHook sched fuel round s =
          some (.ok rounds) ∧
        rounds.getLast? = some last ∧ RoundBase hash memory files start last) ∨
      (resolveRounds hash memory resolver noHook sched fuel round s =
          some (.error (.table (overflow start.limit))) ∧
        start.limit - start.names.length <
          {n | n ∉ start.names ∧ Mentioned memory files n}.ncard) := by
  induction fuel with
  | zero => intro round s _ hlt; exact absurd hlt (Nat.not_lt_zero _)
  | succ fuel ih =>
    intro round s h hlt
    rw [resolveRounds]
    rcases @resolveRound_base hash memory resolver files sched start s h hload round with
      ⟨e, hresult, hbase, hlive⟩ | ⟨hresult, hover⟩
    · rw [hresult]
      simp only
      by_cases hempty : e.members = []
      · left
        rw [if_pos (by rw [hempty]; rfl)]
        exact ⟨[e], e, rfl, rfl, hbase⟩
      · rw [if_neg (by simpa using hempty)]
        have hless := waiting_lt hbase hlive hempty
        rcases ih (round + 1) e.next hbase.next (by
          show (waiting files e.live e.members).card < fuel
          omega) with ⟨rounds, last, hrounds, hlast, hbase⟩ | ⟨hrounds, hover⟩
        · left
          rw [hrounds]
          refine ⟨e :: rounds, last, rfl, ?_, hbase⟩
          rw [List.getLast?_cons, hlast, Option.getD_some]
        · right
          rw [hrounds]
          exact ⟨rfl, hover⟩
    · right
      rw [hresult]
      exact ⟨rfl, hover⟩

variable {rounds : List (RoundEnd Unit)}

/-- The rounds of a run that succeeds: the first one, and the others if it extracts members. -/
theorem resolveRounds_cons {fuel : ℕ}
    (hrounds : resolveRounds hash memory resolver noHook sched fuel round s = some (.ok rounds)) :
    ∃ e fuel', resolveRound hash memory resolver noHook sched round s = .ok e ∧
      fuel = fuel' + 1 ∧ ((e.members = [] ∧ rounds = [e]) ∨ ∃ rest, e.members ≠ [] ∧
        rounds = e :: rest ∧ resolveRounds hash memory resolver noHook sched fuel' (round + 1) e.next =
          some (.ok rest)) := by
  cases fuel with
  | zero => exact absurd hrounds (by simp [resolveRounds])
  | succ fuel =>
    rw [resolveRounds] at hrounds
    cases hresult : resolveRound hash memory resolver noHook sched round s with
    | error e =>
      rw [hresult] at hrounds
      exact absurd hrounds (by simp)
    | ok e =>
      rw [hresult] at hrounds
      simp only [List.isEmpty_iff] at hrounds
      refine ⟨e, fuel, rfl, rfl, ?_⟩
      split at hrounds
      · next hempty =>
        rw [Option.some.injEq, Except.ok.injEq] at hrounds
        exact .inl ⟨hempty, hrounds.symm⟩
      · next hempty =>
        split at hrounds
        · exact absurd hrounds (by simp)
        · exact absurd hrounds (by simp)
        · next rest hrest =>
          rw [Option.some.injEq, Except.ok.injEq] at hrounds
          exact .inr ⟨rest, hempty, hrounds.symm, hrest⟩

theorem resolveRounds_ne_nil {fuel : ℕ} :
    resolveRounds hash memory resolver noHook sched fuel round s ≠ some (.ok []) := by
  intro hrounds
  obtain ⟨_, _, _, _, ⟨_, hnil⟩ | ⟨_, _, hnil, _⟩⟩ := resolveRounds_cons hrounds
  · exact absurd hnil (by simp)
  · exact absurd hnil (by simp)

theorem resolveRound_live (h : StateBase hash memory files start s)
    (hload : ∀ i, (fileAt files i).load = .ok ())
    (he : resolveRound hash memory resolver noHook sched round s = .ok e) :
    RoundBase hash memory files start e ∧ e.live = fun i => s.live i || decide (i ∈ s.load) := by
  rcases @resolveRound_base hash memory resolver files sched start s h hload round with
    ⟨e', hresult, hbase, hlive⟩ | ⟨hresult, -⟩
  · rw [he, Except.ok.injEq] at hresult
    rw [hresult]
    exact ⟨hbase, hlive⟩
  · rw [he] at hresult
    exact absurd hresult (by simp)

variable {last : RoundEnd Unit}

theorem resolveRounds_live (hload : ∀ i, (fileAt files i).load = .ok ()) :
    ∀ {fuel round : ℕ} {s : DriverState Unit}, StateBase hash memory files start s →
      resolveRounds hash memory resolver noHook sched fuel round s = some (.ok rounds) →
      rounds.getLast? = some last →
      ∀ i, (s.live i || decide (i ∈ s.load)) = true → last.live i = true := by
  induction rounds with
  | nil => intro fuel round s _ _ hlast; exact absurd hlast (by simp)
  | cons first rounds ih =>
    intro fuel round s h hrounds hlast i hi
    obtain ⟨e, fuel', hround, -, hcases⟩ := resolveRounds_cons hrounds
    obtain ⟨hbase, hlive⟩ := resolveRound_live h hload hround
    rcases hcases with ⟨-, heq⟩ | ⟨rest, -, heq, hrest⟩
    · rw [heq, List.getLast?_singleton, Option.some.injEq] at hlast
      rw [← hlast, hlive]
      exact hi
    · rw [List.cons.injEq] at heq
      obtain ⟨rfl, rfl⟩ := heq
      cases rounds with
      | nil =>
        exact absurd hrest resolveRounds_ne_nil
      | cons second rounds =>
        rw [List.getLast?_cons_cons] at hlast
        refine ih hbase.next hrest hlast i ?_
        show (first.live i || _) = true
        rw [hlive, Bool.or_eq_true]
        exact .inl hi

/-- **What a run leaves.**  The rules need only be an order on the candidates of the
files that are live in the end. -/
theorem resolveRounds_inv (hload : ∀ i, (fileAt files i).load = .ok ())
    (hextracts : ∀ d, resolver.extracts d = (d.kind == .lazy))
    (htotal : ∀ n, StrictTotalOn (Precedes resolver) (candidatesOf memory files last.live n)) :
    ∀ {fuel round : ℕ} {before : SymbolName → Set Definition} {s : DriverState Unit},
      StateInv hash memory resolver files start before s →
      resolveRounds hash memory resolver noHook sched fuel round s = some (.ok rounds) →
      rounds.getLast? = some last →
      RunInv hash memory resolver files start s.live s.load rounds := by
  induction rounds with
  | nil => intro fuel round before s _ _ hlast; exact absurd hlast (by simp)
  | cons first rounds ih =>
    intro fuel round before s h hrounds hlast
    have hmono := resolveRounds_live hload h.toStateBase hrounds hlast
    obtain ⟨e, fuel', hround, -, hcases⟩ := resolveRounds_cons hrounds
    have hinv := resolveRound_inv h hload hextracts
      (fun n => (htotal n).mono (candidatesOf_mono hmono n)) hround
    have hlive := (resolveRound_live h.toStateBase hload hround).2
    rcases hcases with ⟨hempty, heq⟩ | ⟨rest, hempty, heq, hrest⟩
    · rw [List.cons.injEq] at heq
      obtain ⟨rfl, rfl⟩ := heq
      exact ⟨hinv, hlive, .inl ⟨rfl, hempty⟩⟩
    · rw [List.cons.injEq] at heq
      obtain ⟨rfl, rfl⟩ := heq
      refine ⟨hinv, hlive, .inr ⟨hempty, ?_⟩⟩
      cases rounds with
      | nil =>
        exact absurd hrest resolveRounds_ne_nil
      | cons second rounds =>
        rw [List.getLast?_cons_cons] at hlast
        exact ih hinv.next hrest hlast

end Rounds

end Qld.Symbols
