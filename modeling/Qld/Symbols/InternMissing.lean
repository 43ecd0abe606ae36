import Mathlib.Algebra.Order.BigOperators.Group.List
import Mathlib.Algebra.Order.Group.Nat
import Qld.Symbols.InternNumber

/-!
# Interning what a lookup did not find

The other half of `symbols/table/partition.rs`, and the entry points of the interner.  Names are
looked up first, without modifying the table; those that were not found are interned in order.

* `SymbolTable.findRaw`, `SymbolTable.findAll`, `SymbolTable.lookUpKnown` — the lookups;
* `SymbolTable.internMissing` — interns the names whose IDs hold the mark, on the calling thread
  or by partitioning;
* `SymbolTable.internPartitioned`, `SymbolTable.tryInternBatch`, `SymbolTable.tryInternMissing` —
  which path a batch takes;
* `internMissingSmall_spec`, `internMissingParallel_spec`, `internPartitioned_spec` — **proved**:
  each of them interns the batch in order.
-/

namespace Qld.Symbols

open Qld.Lib SymbolTable

/-- The partitioning passes split the sequence into chunks of at least this many names. -/
def MIN_CHUNK : ℕ := 4096

/-- Misses of a lookup pass below this many are interned on the calling thread. -/
def MIN_PARALLEL_MISSES : ℕ := 1 <<< 14

/-- A batch below this size is processed on the calling thread. -/
def MIN_PARALLEL_LOOKUP : ℕ := 1 <<< 16

/-- The same for a batch into a table that already holds names. -/
def MIN_PARALLEL_LOOKUP_KNOWN : ℕ := 1 <<< 14

/-- The chunk size of `number_sequence`: `total.div_ceil(threads * 4)`, at least `MIN_CHUNK`, and
up to the next multiple of 64. -/
def chunkSize (threads total : ℕ) : ChunkSize where
  size := (max ((total + max threads 1 * 4 - 1) / (max threads 1 * 4)) MIN_CHUNK + 63) / 64 * 64
  pos := by
    have := le_max_right ((total + max threads 1 * 4 - 1) / (max threads 1 * 4)) MIN_CHUNK
    have hmin : MIN_CHUNK = 4096 := rfl
    omega
  dvd := Nat.dvd_mul_left 64 _

/-- How a run is scheduled: the threads of the pool, how a range of ranks is cut into tasks, and
the order of the lookups of pass 1. -/
structure Schedule where
  threads : ℕ
  tasks : ℕ → List ℕ
  tasks_sum : ∀ n, (tasks n).sum = n
  order : List Request → List Request
  order_perm : ∀ l, (order l).Perm l

/-- The position of job `j`. -/
def jobPosition (jobs : List InternJob) (j : ℕ) : ℕ :=
  (jobs[j]?.map InternJob.position).getD 0

/-- The jobs by position, as `sort_unstable_by_key` leaves them when positions are distinct. -/
def positionOrder (jobs : List InternJob) : List ℕ :=
  (List.range jobs.length).insertionSort fun i j => jobPosition jobs i ≤ jobPosition jobs j

/-- Whether neighbours in `order` have different positions. -/
def adjacentDistinct (jobs : List InternJob) : List ℕ → Bool
  | i :: j :: order =>
    jobPosition jobs i != jobPosition jobs j && adjacentDistinct jobs (j :: order)
  | _ => true

/-- The number of names of a batch. -/
def totalNames (jobs : List InternJob) : ℕ := (jobs.map fun job => job.names.length).sum

/-- Sequence indices must fit beside the provisional mark. -/
def canPartition (total : ℕ) : Bool := total < PENDING

/-- The name at index `p.2` of job `p.1`. -/
def placeName (jobs : List InternJob) (p : ℕ × ℕ) : SymbolName :=
  (jobNames jobs p.1).getD p.2 ⟨[], none⟩

/-- Where the IDs of the jobs listed in `order` go. -/
def jobPlaces (jobs : List InternJob) (order : List ℕ) : List (List (ℕ × ℕ)) :=
  order.map fun j => (List.range (jobNames jobs j).length).map (j, ·)

/-- The indices of the names of a job that were not found, as `u32`. -/
def missingIndices (job : InternJob) : List ℕ :=
  (job.ids.zipIdx.filter fun id => id.1 &&& PENDING != 0).map fun id => id.2 % 2 ^ 32

/-- Where the IDs of the names that were not found go, jobs in `order`. -/
def missingPlaces (jobs : List InternJob) (order : List ℕ) : List (ℕ × ℕ) :=
  order.flatMap fun j => ((jobs[j]?.map missingIndices).getD []).map (j, ·)

/-- The names that were not found, in order. -/
def missingNames (jobs : List InternJob) (order : List ℕ) : List SymbolName :=
  (missingPlaces jobs order).map (placeName jobs)

namespace SymbolTable

section Paths

variable (hash : SymbolName → UInt64)

/-- The ID of `name`, or `PENDING` if the table does not hold it. -/
def findRaw (t : SymbolTable) (name : SymbolName) : ℕ :=
  let h32 := low32 (hash name)
  match findSlot (t.shards (shardOf (hash name))).table (tableHash h32) fun slot =>
      slot.h32 == h32 && t.names[slot.value]? == some name with
  | some slot => slot.value
  | none => PENDING

/-- Looks every name of a job up, and returns the number of names not found. -/
def findAll (t : SymbolTable) (job : InternJob) : InternJob × ℕ :=
  let ids := job.names.map (t.findRaw hash)
  ({ job with ids := ids, ids_length := List.length_map _ }, ids.count PENDING)

/-- Looks every name of a batch up, and returns the number of names not found. -/
def lookUpKnown (t : SymbolTable) (jobs : List InternJob) : List InternJob × ℕ :=
  (jobs.map fun job => (t.findAll hash job).1, (jobs.map fun job => (t.findAll hash job).2).sum)

/-- Interns the names that were not found on the calling thread. -/
def internMissingSmall (t : SymbolTable) (jobs : List InternJob) (order : List ℕ) :
    SymbolTable × Except Error (List (List ℕ)) :=
  let base := t.names.length
  match t.internNames hash (missingNames jobs order) with
  | (t, none) => (t.forgetNamesFrom hash base, .error (overflow t.limit))
  | (t, some ids) =>
    (t.growState (t.names.length - base),
      .ok (pass1Ids jobs ((missingPlaces jobs order).zip ids).reverse))

/-- Interns the names that were not found by partitioning. -/
def internMissingParallel (chunk : ℕ → ChunkSize) (tasks : ℕ → List ℕ) (t : SymbolTable)
    (jobs : List InternJob) (order : List ℕ) : SymbolTable × Except Error (List (List ℕ)) :=
  let sequence := Sequence.new [missingNames jobs order]
  match t.numberSequence hash (chunk sequence.len) tasks sequence
      [missingPlaces jobs order] with
  | (t, .error e) => (t, .error e)
  | (t, .ok written) => (t, .ok (pass1Ids jobs written.reverse))

/-- Interns the names of `jobs` whose `ids` hold `PENDING`, in first-occurrence order. -/
def internMissing (chunk : ℕ → ChunkSize) (tasks : ℕ → List ℕ) (t : SymbolTable)
    (jobs : List InternJob) (order : List ℕ) : SymbolTable × Except Error (List (List ℕ)) :=
  if (missingNames jobs order).length < MIN_PARALLEL_MISSES then
    t.internMissingSmall hash jobs order
  else t.internMissingParallel hash chunk tasks jobs order

/-- Interns all names of a batch as one sequence. -/
def numberJobs (chunk : ℕ → ChunkSize) (tasks : ℕ → List ℕ) (t : SymbolTable)
    (jobs : List InternJob) (order : List ℕ) : SymbolTable × Except Error (List (List ℕ)) :=
  let sequence := Sequence.new (order.map (jobNames jobs))
  match t.numberSequence hash (chunk sequence.len) tasks sequence (jobPlaces jobs order) with
  | (t, .error e) => (t, .error e)
  | (t, .ok written) => (t, .ok (pass1Ids jobs written.reverse))

/-- Interns a batch whose jobs have distinct positions by partitioning. -/
def internPartitioned (chunk : ℕ → ChunkSize) (tasks : ℕ → List ℕ) (t : SymbolTable)
    (jobs : List InternJob) (order : List ℕ) : SymbolTable × Except Error (List (List ℕ)) :=
  if t.names.isEmpty then t.numberJobs hash chunk tasks jobs order
  else
    let (jobs, missing) := t.lookUpKnown hash jobs
    if missing = 0 then (t, .ok (jobs.map InternJob.ids))
    else t.internMissing hash chunk tasks jobs order

/-- Interns a batch, on the path its size, its positions and the threads select. -/
def tryInternBatch (sched : Schedule) (t : SymbolTable) (jobs : List InternJob) :
    SymbolTable × Except Error (List (List ℕ)) :=
  let total := totalNames jobs
  let minParallel := if t.names.isEmpty then MIN_PARALLEL_LOOKUP else MIN_PARALLEL_LOOKUP_KNOWN
  let order := positionOrder jobs
  if adjacentDistinct jobs order && (total < minParallel || sched.threads == 1) then
    t.internInOrder hash jobs order
  else if adjacentDistinct jobs order && canPartition total then
    t.internPartitioned hash (chunkSize sched.threads) sched.tasks jobs order
  else t.internPending hash jobs (sched.order (requests jobs))

/-- Interns the names that `findAll` did not find in the jobs.  Jobs that share a position make
it panic: there is no result. -/
def tryInternMissing (sched : Schedule) (t : SymbolTable) (jobs : List InternJob) :
    Option (SymbolTable × Except Error (List (List ℕ))) :=
  let order := positionOrder jobs
  if adjacentDistinct jobs order then
    some (t.internMissing hash (chunkSize sched.threads) sched.tasks jobs order)
  else none

end Paths

end SymbolTable

/-! ### What a path is to do -/

/-- The names of the jobs listed in `order`, one job after the other. -/
def orderNames (jobs : List InternJob) (order : List ℕ) : List SymbolName :=
  order.flatMap (jobNames jobs)

/-- The outcome of interning a batch in the given order of its jobs: new names are appended in
order of first occurrence and every name gets its index, or nothing changes. -/
def InternsInOrder (hash : SymbolName → UInt64) (t : SymbolTable) (jobs : List InternJob)
    (order : List ℕ) (result : SymbolTable × Except Error (List (List ℕ))) : Prop :=
  (Fits t (orderNames jobs order) →
    ∃ t', result = (t', .ok (jobIds t'.names jobs)) ∧
      Interned hash t (fresh t.names (orderNames jobs order)) t') ∧
  (¬ Fits t (orderNames jobs order) → result = (t, .error (overflow t.limit)))

/-- The IDs without the mark are those of their names. -/
def Known (t : SymbolTable) (jobs : List InternJob) : Prop :=
  ∀ job ∈ jobs, ∀ (i id : ℕ) (n : SymbolName), job.ids[i]? = some id →
    job.names[i]? = some n → id &&& PENDING = 0 → t.names[id]? = some n

/-- The indices of the names that were not found fit 32 bits. -/
def NarrowMissing (jobs : List InternJob) : Prop :=
  ∀ job ∈ jobs, ∀ i id : ℕ, job.ids[i]? = some id → id &&& PENDING ≠ 0 → i < 2 ^ 32

/-! ### Lookups -/

section Lookups

variable {hash : SymbolName → UInt64} {t : SymbolTable}

theorem findRaw_eq (h : Rep hash t) (n : SymbolName) :
    t.findRaw hash n = (idOf t.names n).getD PENDING := by
  rw [findRaw, find_name h.toIndex]
  cases idOf t.names n <;> rfl

theorem findRaw_mark (h : Rep hash t) (n : SymbolName) :
    t.findRaw hash n &&& PENDING = 0 ↔ n ∈ t.names := by
  rw [findRaw_eq h]
  by_cases hn : n ∈ t.names
  · have hlt := List.idxOf_lt_length_of_mem hn
    have hle : t.names.length ≤ PENDING := h.len_le
    rw [idOf_of_mem hn, Option.getD_some, and_pending_of_lt (by omega)]
    exact ⟨fun _ => hn, fun _ => rfl⟩
  · rw [idOf_of_notMem hn, Option.getD_none, Nat.and_self]
    exact ⟨fun h0 => absurd h0 (by decide), fun hmem => absurd hmem hn⟩

theorem known_lookUpKnown (h : Rep hash t) (jobs : List InternJob) :
    Known t (t.lookUpKnown hash jobs).1 := by
  intro job hjob i id n hid hn hmark
  obtain ⟨job, -, rfl⟩ := List.mem_map.mp hjob
  simp only [findAll] at hid hn
  rw [List.getElem?_map, hn, Option.map_some, Option.some.injEq] at hid
  subst hid
  have hmem := (findRaw_mark h n).mp hmark
  rw [findRaw_eq h, idOf_of_mem hmem, Option.getD_some,
    List.getElem?_eq_getElem (List.idxOf_lt_length_of_mem hmem), List.getElem_idxOf]

/-- The names that a lookup does not find are those that the table does not hold. -/
theorem narrowMissing_lookUpKnown (h : Rep hash t) (jobs : List InternJob) :
    NarrowMissing (t.lookUpKnown hash jobs).1 ↔ ∀ job ∈ jobs, ∀ (i : ℕ) (n : SymbolName),
      job.names[i]? = some n → n ∉ t.names → i < 2 ^ 32 := by
  constructor
  · intro hnarrow job hjob i n hn hnew
    refine hnarrow _ (List.mem_map.mpr ⟨job, hjob, rfl⟩) i (t.findRaw hash n) ?_ ?_
    · simp only [findAll]
      rw [List.getElem?_map, hn]
      rfl
    · rwa [ne_eq, findRaw_mark h]
  · intro hindex looked hlooked i id hid hmark
    obtain ⟨job, hjob, rfl⟩ := List.mem_map.mp hlooked
    simp only [findAll] at hid
    rw [List.getElem?_map] at hid
    obtain ⟨n, hn, rfl⟩ := Option.map_eq_some_iff.mp hid
    rw [ne_eq, findRaw_mark h] at hmark
    exact hindex job hjob i n hn hmark

@[simp] theorem jobNames_lookUpKnown (jobs : List InternJob) (j : ℕ) :
    jobNames (t.lookUpKnown hash jobs).1 j = jobNames jobs j := by
  rw [jobNames, jobNames, lookUpKnown, List.getElem?_map, Option.map_map]
  rfl

end Lookups

/-! ### The places of the names -/

section Places

variable {jobs : List InternJob} {order : List ℕ}

theorem filter_zipIdx_map {α : Type*} (p : α → Bool) (l : List α) :
    ((l.zipIdx.filter fun a => p a.1).map Prod.snd) =
      (List.range l.length).filter fun i => l[i]?.any p := by
  induction l using List.reverseRecOn with
  | nil => rfl
  | append_singleton l a ih =>
    rw [List.zipIdx_append, List.filter_append, List.map_append, ih, List.length_append,
      List.length_singleton, List.range_succ, List.filter_append]
    congr 1
    · refine List.filter_congr fun i hi => ?_
      rw [List.getElem?_append_left (List.mem_range.mp hi)]
    · cases hp : p a <;> simp [hp]

/-- The ID at a place holds the mark. -/
def marked (jobs : List InternJob) (p : ℕ × ℕ) : Bool :=
  (jobs[p.1]?.bind fun job => job.ids[p.2]?).any fun id => id &&& PENDING != 0

theorem placeName_eq {j i : ℕ} {job : InternJob} {n : SymbolName} (hjob : jobs[j]? = some job)
    (hn : job.names[i]? = some n) : placeName jobs (j, i) = n := by
  simp only [placeName, jobNames, hjob, Option.map_some, Option.getD_some, List.getD_eq_getElem?_getD,
    hn]

theorem jobPlaces_names (jobs : List InternJob) (order : List ℕ) :
    (jobPlaces jobs order).flatten.map (placeName jobs) = orderNames jobs order := by
  rw [jobPlaces, orderNames, List.map_flatten, List.map_map, List.flatMap_def]
  congr 1
  refine List.map_congr_left fun j _ => ?_
  rw [Function.comp_apply, List.map_map]
  apply List.ext_getElem?
  intro i
  rw [List.getElem?_map]
  by_cases hi : i < (jobNames jobs j).length
  · rw [List.getElem?_range hi, List.getElem?_eq_getElem hi]
    simp only [Option.map_some, Function.comp_apply, placeName]
    rw [List.getD_eq_getElem _ _ hi]
  · rw [List.getElem?_eq_none (Nat.le_of_not_lt hi)]
    simp [Nat.le_of_not_lt hi]

theorem mem_jobPlaces {j i : ℕ} {job : InternJob} (horder : order.Perm (List.range jobs.length))
    (hjob : jobs[j]? = some job) (hi : i < job.names.length) :
    (j, i) ∈ (jobPlaces jobs order).flatten := by
  have hj : j ∈ order :=
    horder.mem_iff.mpr (List.mem_range.mpr (List.getElem?_eq_some_iff.mp hjob).1)
  refine List.mem_flatten.mpr ⟨_, List.mem_map.mpr ⟨j, hj, rfl⟩, List.mem_map.mpr ⟨i, ?_, rfl⟩⟩
  rw [List.mem_range, jobNames, hjob]
  exact hi

/-- The places of the names that were not found, among all places. -/
theorem missingPlaces_eq (hnarrow : NarrowMissing jobs) (order : List ℕ) :
    missingPlaces jobs order = (jobPlaces jobs order).flatten.filter (marked jobs) := by
  rw [missingPlaces, jobPlaces, List.filter_flatten, List.map_map, List.flatMap_def]
  congr 1
  refine List.map_congr_left fun j _ => ?_
  rw [Function.comp_apply, List.filter_map]
  cases hjob : jobs[j]? with
  | none => simp [jobNames, hjob]
  | some job =>
    have hindices : missingIndices job = (List.range job.names.length).filter
        fun i => job.ids[i]?.any fun id => id &&& PENDING != 0 := by
      rw [← job.ids_length, ← filter_zipIdx_map, missingIndices]
      refine List.map_congr_left fun id hid => ?_
      obtain ⟨hmem, hmark⟩ := List.mem_filter.mp hid
      have hget := List.mk_mem_zipIdx_iff_getElem?.mp hmem
      exact Nat.mod_eq_of_lt (hnarrow job (List.mem_of_getElem? hjob) _ _ hget
        (by simpa using hmark))
    rw [Option.map_some, Option.getD_some, hindices]
    congr 1
    rw [jobNames, hjob, Option.map_some, Option.getD_some]
    refine List.filter_congr fun i _ => ?_
    rw [Function.comp_apply, marked, hjob, Option.bind_some]

/-- A place is one of the names of a job. -/
theorem job_of_mem_jobPlaces {p : ℕ × ℕ} (hp : p ∈ (jobPlaces jobs order).flatten) :
    ∃ j i job, p = (j, i) ∧ jobs[j]? = some job ∧ i < job.names.length := by
  obtain ⟨places, hplaces, hp⟩ := List.mem_flatten.mp hp
  obtain ⟨j, -, rfl⟩ := List.mem_map.mp hplaces
  obtain ⟨i, hi, rfl⟩ := List.mem_map.mp hp
  rw [List.mem_range, jobNames] at hi
  cases hjob : jobs[j]? with
  | none => simp [hjob] at hi
  | some job =>
    rw [hjob, Option.map_some, Option.getD_some] at hi
    exact ⟨j, i, job, rfl, hjob, hi⟩

theorem Known.mem_of_not_marked {t : SymbolTable} (h : Known t jobs) {p : ℕ × ℕ}
    (hp : p ∈ (jobPlaces jobs order).flatten) (hmark : marked jobs p = false) :
    placeName jobs p ∈ t.names := by
  obtain ⟨j, i, job, rfl, hjob, hi⟩ := job_of_mem_jobPlaces hp
  have hid : i < job.ids.length := by
    rw [job.ids_length]
    exact hi
  have hget := List.getElem?_eq_getElem hi
  rw [marked, hjob, Option.bind_some, List.getElem?_eq_getElem hid, Option.any_some] at hmark
  rw [placeName_eq hjob hget]
  exact List.mem_of_getElem? (h job (List.mem_of_getElem? hjob) i _ _
    (List.getElem?_eq_getElem hid) hget (by simpa using hmark))

theorem fresh_missingNames {t : SymbolTable} (hknown : Known t jobs) (hnarrow : NarrowMissing jobs)
    (order : List ℕ) :
    fresh t.names (missingNames jobs order) = fresh t.names (orderNames jobs order) := by
  rw [missingNames, missingPlaces_eq hnarrow, ← jobPlaces_names]
  exact fresh_filter_map _ _ _ fun p hp hmark => hknown.mem_of_not_marked hp hmark

/-- What is missing after a lookup: the names that the table does not hold. -/
theorem missingNames_lookUpKnown {hash : SymbolName → UInt64} {t : SymbolTable} (h : Rep hash t)
    (hnarrow : NarrowMissing (t.lookUpKnown hash jobs).1) (order : List ℕ) :
    missingNames (t.lookUpKnown hash jobs).1 order =
      (orderNames jobs order).filter fun n => n ∉ t.names := by
  have hnames : jobNames (t.lookUpKnown hash jobs).1 = jobNames jobs :=
    funext fun j => jobNames_lookUpKnown jobs j
  have hplace : placeName (t.lookUpKnown hash jobs).1 = placeName jobs := by
    funext p
    rw [placeName, placeName, hnames]
  have hplaces : jobPlaces (t.lookUpKnown hash jobs).1 order = jobPlaces jobs order := by
    rw [jobPlaces, jobPlaces, hnames]
  rw [missingNames, missingPlaces_eq hnarrow, ← jobPlaces_names, List.filter_map, hplace, hplaces]
  congr 1
  refine List.filter_congr fun p hp => ?_
  obtain ⟨j, i, job, rfl, hjob, hi⟩ := job_of_mem_jobPlaces hp
  have hget := List.getElem?_eq_getElem hi
  rw [Function.comp_apply, placeName_eq hjob hget, marked, lookUpKnown, List.getElem?_map, hjob]
  simp only [Option.map_some, Option.bind_some, findAll, List.getElem?_map, hget, Option.any_some]
  rw [Bool.eq_iff_iff, bne_iff_ne, ne_eq, findRaw_mark h, decide_eq_true_iff]

theorem lt_of_mem_missingPlaces {p : ℕ × ℕ} (hp : p ∈ missingPlaces jobs order) :
    p.2 < 2 ^ 32 := by
  obtain ⟨j, -, hp⟩ := List.mem_flatMap.mp hp
  obtain ⟨i, hi, rfl⟩ := List.mem_map.mp hp
  cases hjob : jobs[j]? with
  | none => simp [hjob] at hi
  | some job =>
    rw [hjob, Option.map_some, Option.getD_some, missingIndices] at hi
    obtain ⟨id, -, rfl⟩ := List.mem_map.mp hi
    exact Nat.mod_lt _ (by decide)

/-- An ID that is not written back stays as the lookup left it. -/
theorem getElem?_pass1Ids_of_notMem {written : List ((ℕ × ℕ) × ℕ)} {j i id : ℕ} {job : InternJob}
    (hjob : jobs[j]? = some job) (hid : job.ids[i]? = some id)
    (hout : (j, i) ∉ written.map Prod.fst) :
    ((pass1Ids jobs written)[j]?.bind fun ids => ids[i]?) = some id := by
  have hnone : written.lookup (j, i) = none := by
    rw [List.lookup_eq_none_iff]
    intro entry hentry
    rw [bne_iff_ne]
    intro heq
    exact hout (List.mem_map.mpr ⟨entry, hentry, heq.symm⟩)
  rw [pass1Ids, List.getElem?_map, List.getElem?_zipIdx, hjob]
  simp only [Option.map_some, Option.bind_some, Nat.zero_add]
  rw [List.getElem?_map, List.getElem?_zipIdx, hid]
  simp [hnone]

theorem lookup_graph {α β : Type*} [BEq α] [LawfulBEq α] (f : α → β) (a : α) (ps : List α) :
    (ps.map fun p => (p, f p)).lookup a = if a ∈ ps then some (f a) else none := by
  classical
  induction ps with
  | nil => rfl
  | cons p ps ih =>
    rw [List.map_cons, List.lookup_cons]
    by_cases hap : a = p
    · subst hap
      simp
    · rw [beq_false_of_ne hap, ih]
      simp [hap]

/-- The IDs written back, with those that were found. -/
theorem pass1Ids_places {places : List (ℕ × ℕ)} {names : List SymbolName}
    (hplaces : ∀ j job i n id, jobs[j]? = some job → job.names[i]? = some n →
      job.ids[i]? = some id → (j, i) ∉ places → id = names.idxOf n) :
    pass1Ids jobs (places.zip ((places.map (placeName jobs)).map names.idxOf)).reverse =
      jobIds names jobs := by
  have hzip : (places.zip ((places.map (placeName jobs)).map names.idxOf)).reverse =
      places.reverse.map fun p => (p, names.idxOf (placeName jobs p)) := by
    rw [List.map_map, List.map_reverse, ← List.map_prod_left_eq_zip]
    rfl
  rw [hzip, jobIds]
  refine pass1Ids_eq fun j job i n id hjob hn hid => ?_
  rw [lookup_graph]
  split
  · rw [Option.getD_some, placeName_eq hjob hn]
  · next hout =>
    exact hplaces j job i n id hjob hn hid fun hmem => hout (List.mem_reverse.mpr hmem)

end Places

/-! ### The outcome of each path -/

section Outcome

variable {hash : SymbolName → UInt64} {t : SymbolTable} {jobs : List InternJob} {order : List ℕ}

/-- The IDs of a batch when its missing names were interned. -/
theorem pass1Ids_missing {t' : SymbolTable} {news : List SymbolName} (h : Rep hash t)
    (hknown : Known t jobs) (hnarrow : NarrowMissing jobs)
    (horder : order.Perm (List.range jobs.length)) (hnames : t'.names = t.names ++ news) :
    pass1Ids jobs ((missingPlaces jobs order).zip
      ((missingNames jobs order).map t'.names.idxOf)).reverse = jobIds t'.names jobs := by
  refine pass1Ids_places fun j job i n id hjob hn hid hout => ?_
  have hmark : id &&& PENDING = 0 := by
    by_contra hmark
    apply hout
    rw [missingPlaces_eq hnarrow, List.mem_filter]
    refine ⟨mem_jobPlaces horder hjob (List.getElem?_eq_some_iff.mp hn).1, ?_⟩
    rw [marked, hjob, Option.bind_some, hid, Option.any_some]
    simpa using hmark
  have hget := hknown job (List.mem_of_getElem? hjob) i id n hid hn hmark
  have hmem := List.mem_of_getElem? hget
  rw [hnames, List.idxOf_append_of_mem hmem]
  have hid' := (idOf_eq_some h.nodup).mpr hget
  rw [idOf_of_mem hmem, Option.some.injEq] at hid'
  exact hid'.symm

/-- **Interning the missing names on the calling thread.** -/
theorem internMissingSmall_spec (h : Rep hash t) (hknown : Known t jobs)
    (hnarrow : NarrowMissing jobs) (horder : order.Perm (List.range jobs.length)) :
    InternsInOrder hash t jobs order (t.internMissingSmall hash jobs order) := by
  obtain ⟨hfit, hfull⟩ := @internNames_spec hash (missingNames jobs order) t h.toIndex
  rw [fresh_missingNames hknown hnarrow] at hfit hfull
  constructor
  · intro hle
    obtain ⟨t', ht', hext⟩ := hfit hle
    have hcount : t'.names.length - t.names.length =
        (fresh t.names (orderNames jobs order)).length := by
      rw [hext.names, List.length_append, Nat.add_sub_cancel_left]
    refine ⟨t'.growState _, ?_, hext.growState h hle⟩
    simp only [internMissingSmall, ht', hcount,
      pass1Ids_missing h hknown hnarrow horder hext.names]
    rfl
  · intro hnot
    obtain ⟨t', news, ht', hext⟩ := hfull hnot
    simp only [internMissingSmall, ht', forgetNamesFrom_eq hext, hext.limit]

/-- **Interning the missing names by partitioning.** -/
theorem internMissingParallel_spec (h : Rep hash t) (hknown : Known t jobs)
    (hnarrow : NarrowMissing jobs) (horder : order.Perm (List.range jobs.length))
    (chunk : ℕ → ChunkSize) (tasks : ℕ → List ℕ) (htasks : ∀ n, (tasks n).sum = n)
    (hlt : (missingNames jobs order).length < PENDING) :
    InternsInOrder hash t jobs order (t.internMissingParallel hash chunk tasks jobs order) := by
  have hflat : [missingNames jobs order].flatten = missingNames jobs order := by simp
  obtain ⟨hfit, hfull⟩ := @numberSequence_spec hash t [missingNames jobs order] _ h
    (chunk (Sequence.new [missingNames jobs order]).len) tasks htasks (by rwa [hflat])
    [missingPlaces jobs order] (by rw [hflat, missingNames]; simp)
  rw [hflat] at hfit hfull
  unfold Fits at hfit hfull
  rw [fresh_missingNames hknown hnarrow] at hfit hfull
  constructor
  · intro hle
    obtain ⟨t', ht', hint⟩ := hfit hle
    refine ⟨t', ?_, hint⟩
    rw [internMissingParallel]
    simp only [ht']
    rw [List.flatten_singleton, pass1Ids_missing h hknown hnarrow horder hint.names]
  · intro hnot
    rw [internMissingParallel]
    simp only [hfull hnot]

/-- **Interning the missing names.** -/
theorem internMissing_spec (h : Rep hash t) (hknown : Known t jobs)
    (hnarrow : NarrowMissing jobs) (horder : order.Perm (List.range jobs.length))
    (chunk : ℕ → ChunkSize) (tasks : ℕ → List ℕ) (htasks : ∀ n, (tasks n).sum = n)
    (hlt : (missingNames jobs order).length < PENDING) :
    InternsInOrder hash t jobs order (t.internMissing hash chunk tasks jobs order) := by
  rw [internMissing]
  split
  · exact internMissingSmall_spec h hknown hnarrow horder
  · exact internMissingParallel_spec h hknown hnarrow horder chunk tasks htasks hlt

theorem length_orderNames (horder : order.Perm (List.range jobs.length)) :
    (orderNames jobs order).length = totalNames jobs := by
  rw [orderNames, List.length_flatMap, (horder.map _).sum_eq, totalNames]
  congr 1
  apply List.ext_getElem?
  intro j
  rw [List.getElem?_map, List.getElem?_map]
  by_cases hj : j < jobs.length
  · rw [List.getElem?_range hj, List.getElem?_eq_getElem hj, Option.map_some, Option.map_some,
      jobNames, List.getElem?_eq_getElem hj]
    rfl
  · rw [List.getElem?_eq_none (Nat.le_of_not_lt hj)]
    simp [Nat.le_of_not_lt hj]

/-- A batch that can be partitioned has no index beyond 32 bits. -/
theorem narrow_of_canPartition (hlt : totalNames jobs < PENDING) : NarrowMissing jobs := by
  intro job hjob i id hid _
  have hi := (List.getElem?_eq_some_iff.mp hid).1
  have hle : job.names.length ≤ totalNames jobs :=
    List.single_le_sum (fun _ _ => Nat.zero_le _) _ (List.mem_map.mpr ⟨job, hjob, rfl⟩)
  have hpending : PENDING < 2 ^ 32 := by decide
  rw [job.ids_length] at hi
  omega

theorem length_missingNames_le (hnarrow : NarrowMissing jobs)
    (horder : order.Perm (List.range jobs.length)) :
    (missingNames jobs order).length ≤ totalNames jobs := by
  rw [← length_orderNames horder, ← jobPlaces_names, missingNames, missingPlaces_eq hnarrow,
    List.length_map, List.length_map]
  exact List.length_filter_le _ _

theorem Interned.refl (h : Rep hash t) {xs : List SymbolName} (hknown : ∀ x ∈ xs, x ∈ t.names) :
    Fits t xs ∧ Interned hash t (fresh t.names xs) t := by
  have hnil : fresh t.names xs = [] := by
    refine List.eq_nil_iff_forall_not_mem.mpr fun x hx => ?_
    rw [mem_fresh] at hx
    exact hx.2 (hknown x hx.1)
  refine ⟨?_, ?_⟩
  · rw [Fits, hnil]
    exact Nat.zero_le _
  · rw [hnil]
    have := (Extends.refl h.toIndex).growState h (Nat.zero_le _)
    rwa [List.length_nil, growState_zero] at this

theorem mem_orderNames {n : SymbolName} (horder : order.Perm (List.range jobs.length)) :
    n ∈ orderNames jobs order ↔ ∃ job ∈ jobs, n ∈ job.names := by
  rw [orderNames, List.mem_flatMap]
  constructor
  · rintro ⟨j, -, hn⟩
    rw [jobNames] at hn
    cases hjob : jobs[j]? with
    | none => simp [hjob] at hn
    | some job =>
      rw [hjob] at hn
      exact ⟨job, List.mem_of_getElem? hjob, hn⟩
  · rintro ⟨job, hjob, hn⟩
    obtain ⟨j, hj⟩ := List.mem_iff_getElem?.mp hjob
    refine ⟨j, horder.mem_iff.mpr (List.mem_range.mpr (List.getElem?_eq_some_iff.mp hj).1), ?_⟩
    rw [jobNames, hj]
    exact hn

/-- Without a miss, the batch has known names only. -/
theorem mem_names_of_no_miss (h : Rep hash t) (hzero : (t.lookUpKnown hash jobs).2 = 0)
    {job : InternJob} (hjob : job ∈ jobs) {n : SymbolName} (hn : n ∈ job.names) : n ∈ t.names := by
  have hcount : (t.findAll hash job).2 = 0 :=
    List.all_zero_of_le_zero_le_of_sum_eq_zero (fun _ _ => Nat.zero_le _) hzero
      (List.mem_map.mpr ⟨job, hjob, rfl⟩)
  rw [findAll, List.count_eq_zero] at hcount
  by_contra hnot
  apply hcount
  refine List.mem_map.mpr ⟨n, hn, ?_⟩
  rw [findRaw_eq h, idOf_of_notMem hnot, Option.getD_none]

theorem jobIds_lookUpKnown (names : List SymbolName) (jobs : List InternJob) :
    jobIds names (t.lookUpKnown hash jobs).1 = jobIds names jobs := by
  rw [jobIds, jobIds, lookUpKnown, List.map_map]
  rfl

theorem totalNames_lookUpKnown (jobs : List InternJob) :
    totalNames (t.lookUpKnown hash jobs).1 = totalNames jobs := by
  rw [totalNames, totalNames, lookUpKnown, List.map_map]
  rfl

theorem length_lookUpKnown (jobs : List InternJob) :
    (t.lookUpKnown hash jobs).1.length = jobs.length := List.length_map _

theorem internsInOrder_lookUpKnown {result : SymbolTable × Except Error (List (List ℕ))} :
    InternsInOrder hash t (t.lookUpKnown hash jobs).1 order result ↔
      InternsInOrder hash t jobs order result := by
  have hnames : orderNames (t.lookUpKnown hash jobs).1 order = orderNames jobs order := by
    rw [orderNames, orderNames]
    congr 1
    funext j
    exact jobNames_lookUpKnown jobs j
  rw [InternsInOrder, InternsInOrder, hnames]
  simp only [jobIds_lookUpKnown]

/-- **Looking up and then interning what is missing.** -/
theorem lookUpKnown_internMissingSmall_spec (h : Rep hash t)
    (horder : order.Perm (List.range jobs.length))
    (hnarrow : NarrowMissing (t.lookUpKnown hash jobs).1) :
    InternsInOrder hash t jobs order
      (t.internMissingSmall hash (t.lookUpKnown hash jobs).1 order) := by
  rw [← internsInOrder_lookUpKnown]
  exact internMissingSmall_spec h (known_lookUpKnown h jobs) hnarrow (by rwa [length_lookUpKnown])

theorem lookUpKnown_internMissingParallel_spec (h : Rep hash t)
    (horder : order.Perm (List.range jobs.length))
    (hnarrow : NarrowMissing (t.lookUpKnown hash jobs).1)
    (hlt : (missingNames (t.lookUpKnown hash jobs).1 order).length < PENDING)
    (chunk : ℕ → ChunkSize) (tasks : ℕ → List ℕ) (htasks : ∀ n, (tasks n).sum = n) :
    InternsInOrder hash t jobs order
      (t.internMissingParallel hash chunk tasks (t.lookUpKnown hash jobs).1 order) := by
  rw [← internsInOrder_lookUpKnown]
  exact internMissingParallel_spec h (known_lookUpKnown h jobs) hnarrow
    (by rwa [length_lookUpKnown]) chunk tasks htasks hlt

/-- **Numbering a whole batch as one sequence.** -/
theorem numberJobs_spec (h : Rep hash t) (horder : order.Perm (List.range jobs.length))
    (hlt : totalNames jobs < PENDING) (chunk : ℕ → ChunkSize) (tasks : ℕ → List ℕ)
    (htasks : ∀ n, (tasks n).sum = n) :
    InternsInOrder hash t jobs order (t.numberJobs hash chunk tasks jobs order) := by
  have hflat : (order.map (jobNames jobs)).flatten = orderNames jobs order :=
    List.flatMap_def.symm
  obtain ⟨hfit, hfull⟩ := @numberSequence_spec hash t (order.map (jobNames jobs)) _ h
    (chunk (Sequence.new (order.map (jobNames jobs))).len) tasks htasks
    (by rwa [hflat, length_orderNames horder]) (jobPlaces jobs order)
    (by rw [hflat, ← jobPlaces_names, List.length_map])
  rw [hflat] at hfit hfull
  constructor
  · intro hle
    obtain ⟨t', ht', hint⟩ := hfit hle
    refine ⟨t', ?_, hint⟩
    simp only [numberJobs, ht']
    rw [← jobPlaces_names, pass1Ids_places]
    intro j job i n id hjob hn _ hout
    exact absurd (mem_jobPlaces horder hjob (List.getElem?_eq_some_iff.mp hn).1) hout
  · intro hnot
    simp only [numberJobs, hfull hnot]

/-- **Partitioning a batch.** -/
theorem internPartitioned_spec (h : Rep hash t) (horder : order.Perm (List.range jobs.length))
    (hlt : totalNames jobs < PENDING) (chunk : ℕ → ChunkSize) (tasks : ℕ → List ℕ)
    (htasks : ∀ n, (tasks n).sum = n) :
    InternsInOrder hash t jobs order (t.internPartitioned hash chunk tasks jobs order) := by
  rw [internPartitioned]
  split
  · exact numberJobs_spec h horder hlt chunk tasks htasks
  · have hlt' : totalNames (t.lookUpKnown hash jobs).1 < PENDING := by
      rwa [totalNames_lookUpKnown]
    have hnarrow := narrow_of_canPartition hlt'
    have hperm : order.Perm (List.range (t.lookUpKnown hash jobs).1.length) := by
      rwa [length_lookUpKnown]
    have hmissing := length_missingNames_le hnarrow hperm
    simp only
    split
    · next hzero =>
      have hall : ∀ n ∈ orderNames jobs order, n ∈ t.names := fun n hn => by
        obtain ⟨job, hjob, hn⟩ := (mem_orderNames horder).mp hn
        exact mem_names_of_no_miss h hzero hjob hn
      obtain ⟨hfits, hint⟩ := Interned.refl h hall
      refine ⟨fun _ => ⟨t, ?_, hint⟩, fun hnot => absurd hfits hnot⟩
      rw [lookUpKnown, List.map_map, jobIds]
      congr 2
      refine List.map_congr_left fun job hjob => List.map_congr_left fun n hn => ?_
      rw [findRaw_eq h, idOf_of_mem (mem_names_of_no_miss h hzero hjob hn), Option.getD_some]
    · rw [internMissing]
      split
      · exact lookUpKnown_internMissingSmall_spec h horder hnarrow
      · exact lookUpKnown_internMissingParallel_spec h horder hnarrow (hmissing.trans_lt hlt') chunk
          tasks htasks

end Outcome

end Qld.Symbols
