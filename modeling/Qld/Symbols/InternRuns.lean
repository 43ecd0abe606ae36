import Qld.Symbols.InternCorrect

/-!
# Runs of the interner

The tables that runs of `try_intern`, `try_intern_batch` and `try_intern_missing` leave.

* `Reachable` — the tables of such runs, whichever calls fail, with any limit;
* `FailsExactly` — a call fails exactly when its new names do not fit, and then changes nothing;
* `Consistent` — what holds of a table between calls;
* `Reachable.rep`, `calls_sound` — both hold in every run whose `try_intern_missing`
  calls stay below the widths that `intern_missing` assumes;
* `pathsAgree_iff` — on such tables the paths of the interner agree exactly under
  `NewNamesFit`.

`intern_missing` keeps the index of a missing name in 32 bits and the index in the sequence of
missing names in 31; it checks neither (`MissingFits`).
-/

namespace Qld.Symbols

open Qld.Lib SymbolTable

/-- Fewer names are missing than fit beside the mark, at indices that fit 32 bits. -/
def MissingFits (jobs : List InternJob) : Prop :=
  NarrowMissing jobs ∧ (missingNames jobs (positionOrder jobs)).length < PENDING

/-- The tables that runs of calls leave; `allowed` says which batches `try_intern_missing` is
called with.  Their IDs were looked up in this table or an earlier one of the run. -/
inductive Reachable (hash : SymbolName → UInt64) (allowed : List InternJob → Prop) :
    SymbolTable → Prop where
  | new : Reachable hash allowed .new
  | setLimit {t : SymbolTable} (limit : ℕ) :
      Reachable hash allowed t → Reachable hash allowed (t.setLimit limit)
  | tryIntern {t : SymbolTable} (n : SymbolName) :
      Reachable hash allowed t → Reachable hash allowed (t.tryIntern hash n).1
  | tryInternBatch {t : SymbolTable} (sched : Schedule) (jobs : List InternJob) :
      Reachable hash allowed t → Reachable hash allowed (t.tryInternBatch hash sched jobs).1
  | tryInternMissing {t : SymbolTable} (sched : Schedule) (jobs : List InternJob)
      {result : SymbolTable × Except Error (List (List ℕ))} :
      Reachable hash allowed t → Known t jobs → allowed jobs →
      t.tryInternMissing hash sched jobs = some result → Reachable hash allowed result.1

/-- The distinct new names of a batch. -/
def batchNames (t : SymbolTable) (jobs : List InternJob) : Set SymbolName :=
  {n | n ∉ t.names ∧ ∃ job ∈ jobs, n ∈ job.names}

/-- A call fails exactly when there are more new names than the limit leaves room for, and then
the table is as it was. -/
def FailsExactly {α : Type} (t : SymbolTable) (news : Set SymbolName)
    (result : SymbolTable × Except Error α) : Prop :=
  (t.limit - t.names.length < news.ncard → result = (t, .error (overflow t.limit))) ∧
  (news.ncard ≤ t.limit - t.names.length → ∃ t' value, result = (t', .ok value))

/-- What holds of a table between calls: the slots of every shard are those of its names, each
with the index of the name. -/
structure Consistent (hash : SymbolName → UInt64) (t : SymbolTable) : Prop where
  names_nodup : t.names.Nodup
  slots : ∀ s, (t.shards s).table.Perm
    ((t.names.zipIdx.filter fun entry => shardOf (hash entry.1) = s).map fun entry =>
      ⟨low32 (hash entry.1), entry.2⟩)
  not_pending : ∀ s, ∀ slot ∈ (t.shards s).table, slot.value &&& PENDING = 0
  pending : ∀ s, (t.shards s).pending = []
  assigned : ∀ s, (t.shards s).assigned = []
  flags_length : t.flags.length = t.names.length
  defs_length : t.defs.length = t.names.length
  lookup_iff : ∀ n i, t.lookup hash n = some i ↔ t.names[i]? = some n

/-- Every table of a run is consistent, and every call on it fails exactly when it has to. -/
def Sound (hash : SymbolName → UInt64) (allowed : List InternJob → Prop) : Prop :=
  ∀ t, Reachable hash allowed t →
    Consistent hash t ∧
    (∀ n, FailsExactly t {m | m = n ∧ m ∉ t.names} (t.tryIntern hash n)) ∧
    (∀ sched jobs, FailsExactly t (batchNames t jobs) (t.tryInternBatch hash sched jobs)) ∧
    ∀ sched jobs result, Known t jobs → allowed jobs →
      t.tryInternMissing hash sched jobs = some result → FailsExactly t (batchNames t jobs) result

/-! ### The invariant -/

section Invariant

variable {hash : SymbolName → UInt64} {t : SymbolTable} {jobs : List InternJob}

theorem rep_new (hash : SymbolName → UInt64) : Rep hash .new := by
  refine ⟨⟨List.nodup_nil, fun s => ⟨List.nodup_nil, fun slot => ?_⟩, fun _ => rfl, fun _ => rfl⟩,
    Nat.zero_le _, rfl, rfl⟩
  constructor
  · intro hslot
    exact absurd hslot List.not_mem_nil
  · intro ⟨n, hn, _⟩
    rw [show (SymbolTable.new).names = [] from rfl, idOf_of_notMem List.not_mem_nil] at hn
    exact absurd hn (by simp)

theorem Rep.setLimit (h : Rep hash t) (limit : ℕ) : Rep hash (t.setLimit limit) :=
  ⟨h.toIndex, h.len_le, h.flags, h.defs⟩

theorem ncard_fresh (t : SymbolTable) (xs : List SymbolName) :
    {n | n ∉ t.names ∧ n ∈ xs}.ncard = (fresh t.names xs).length := by
  have hset : {n | n ∉ t.names ∧ n ∈ xs} = (fresh t.names xs).toFinset := by
    ext n
    rw [List.coe_toFinset, Set.mem_ofPred_eq, Set.mem_ofPred_eq, mem_fresh, and_comm]
  rw [hset, Set.ncard_coe_finset, List.toFinset_card_of_nodup (nodup_fresh _ _)]

/-- What a spec of a call gives: the invariant afterwards, and when it fails. -/
theorem failsExactly_of_spec {α : Type} {xs : List SymbolName} {news : Set SymbolName}
    (hnews : ∀ n, n ∈ news ↔ n ∉ t.names ∧ n ∈ xs) (h : Rep hash t)
    {result : SymbolTable × Except Error α}
    (hfit : Fits t xs → ∃ t' value added, result = (t', .ok value) ∧ Interned hash t added t')
    (hfull : ¬ Fits t xs → result = (t, .error (overflow t.limit))) :
    FailsExactly t news result ∧ Rep hash result.1 := by
  have hcard : news.ncard = (fresh t.names xs).length := by
    rw [← ncard_fresh]
    congr 1
    ext n
    exact hnews n
  rw [FailsExactly, hcard]
  by_cases hle : Fits t xs
  · obtain ⟨t', value, added, hresult, hint⟩ := hfit hle
    refine ⟨⟨fun hlt => absurd hle (Nat.not_le_of_lt hlt), fun _ => ⟨t', value, hresult⟩⟩, ?_⟩
    rw [hresult]
    exact hint.rep
  · refine ⟨⟨fun _ => hfull hle, fun hle' => absurd hle' hle⟩, ?_⟩
    rw [hfull hle]
    exact h

variable {order : List ℕ}

theorem mem_batchNames (horder : order.Perm (List.range jobs.length)) (n : SymbolName) :
    n ∈ batchNames t jobs ↔ n ∉ t.names ∧ n ∈ orderNames jobs order := by
  rw [mem_orderNames horder]
  rfl

variable {result : SymbolTable × Except Error (List (List ℕ))}

theorem InternsInOrder.failsExactly (h : Rep hash t) (horder : order.Perm (List.range jobs.length))
    (hresult : InternsInOrder hash t jobs order result) :
    FailsExactly t (batchNames t jobs) result ∧ Rep hash result.1 := by
  refine failsExactly_of_spec (mem_batchNames horder) h (fun hfits => ?_) hresult.2
  obtain ⟨t', ht', hint⟩ := hresult.1 hfits
  exact ⟨t', _, _, ht', hint⟩

/-- **One name.** -/
theorem tryIntern_sound (h : Rep hash t) (n : SymbolName) :
    FailsExactly t {m | m = n ∧ m ∉ t.names} (t.tryIntern hash n) ∧
      Rep hash (t.tryIntern hash n).1 := by
  obtain ⟨hfit, hfull⟩ := tryIntern_spec h n
  refine failsExactly_of_spec (fun m => ?_) h (fun hfits => ?_) hfull
  · rw [List.mem_singleton, and_comm]
    rfl
  · obtain ⟨t', ht', hint⟩ := hfit hfits
    exact ⟨t', _, _, ht', hint⟩

/-- **A batch, whichever path it takes.** -/
theorem tryInternBatch_spec (h : Rep hash t) (sched : Schedule) (jobs : List InternJob) :
    (Fits t (orderNames jobs (positionOrder jobs)) →
      ∃ t' news, t.tryInternBatch hash sched jobs = (t', .ok (jobIds t'.names jobs)) ∧
        Interned hash t news t' ∧
        news.Perm (fresh t.names (orderNames jobs (positionOrder jobs)))) ∧
    (¬ Fits t (orderNames jobs (positionOrder jobs)) →
      t.tryInternBatch hash sched jobs = (t, .error (overflow t.limit))) := by
  have hperm := positionOrder_perm jobs
  have hpath : ∀ {result}, InternsInOrder hash t jobs (positionOrder jobs) result →
      (Fits t (orderNames jobs (positionOrder jobs)) →
        ∃ t' news, result = (t', .ok (jobIds t'.names jobs)) ∧ Interned hash t news t' ∧
          news.Perm (fresh t.names (orderNames jobs (positionOrder jobs)))) ∧
      (¬ Fits t (orderNames jobs (positionOrder jobs)) →
        result = (t, .error (overflow t.limit))) := by
    intro result hresult
    refine ⟨fun hfits => ?_, hresult.2⟩
    obtain ⟨t', ht', hint⟩ := hresult.1 hfits
    exact ⟨t', _, ht', hint, List.Perm.refl _⟩
  rw [tryInternBatch]
  generalize (if t.names.isEmpty then MIN_PARALLEL_LOOKUP else MIN_PARALLEL_LOOKUP_KNOWN) =
    minParallel
  split
  · exact hpath (internInOrder_spec h jobs hperm)
  · split
    · next hcan =>
      have hlt : totalNames jobs < PENDING := by
        rw [Bool.and_eq_true] at hcan
        exact of_decide_eq_true hcan.2
      exact hpath (internPartitioned_spec h hperm hlt _ _ sched.tasks_sum)
    · obtain ⟨hfresh, hiff⟩ := @fits_congr t _ _ (@mem_orderNames_iff_request jobs)
      rw [hiff]
      obtain ⟨hfit, hfull⟩ := internPending_spec h jobs (sched.order_perm (requests jobs))
      refine ⟨fun hfits => ?_, hfull⟩
      obtain ⟨t', news, ht', hint, hnews, -⟩ := hfit hfits
      exact ⟨t', news, ht', hint, hnews.trans hfresh.symm⟩

theorem tryInternBatch_sound (h : Rep hash t) (sched : Schedule) (jobs : List InternJob) :
    FailsExactly t (batchNames t jobs) (t.tryInternBatch hash sched jobs) ∧
      Rep hash (t.tryInternBatch hash sched jobs).1 := by
  obtain ⟨hfit, hfull⟩ := tryInternBatch_spec h sched jobs
  refine failsExactly_of_spec (mem_batchNames (positionOrder_perm jobs)) h (fun hfits => ?_) hfull
  obtain ⟨t', news, ht', hint, -⟩ := hfit hfits
  exact ⟨t', _, news, ht', hint⟩

/-- **The missing names of a batch.** -/
theorem tryInternMissing_sound (h : Rep hash t) (sched : Schedule) (hknown : Known t jobs)
    (hmissing : MissingFits jobs) (hresult : t.tryInternMissing hash sched jobs = some result) :
    FailsExactly t (batchNames t jobs) result ∧ Rep hash result.1 := by
  have hperm := positionOrder_perm jobs
  rw [tryInternMissing] at hresult
  split at hresult
  · rw [Option.some.injEq] at hresult
    rw [← hresult]
    exact InternsInOrder.failsExactly h hperm (internMissing_spec h hknown hmissing.1 hperm _ _
      sched.tasks_sum hmissing.2)
  · exact absurd hresult (by simp)

/-- **Every table of a run keeps the representation invariant.** -/
theorem Reachable.rep (h : Reachable hash MissingFits t) : Rep hash t := by
  induction h with
  | new => exact rep_new hash
  | setLimit limit _ ih => exact ih.setLimit limit
  | tryIntern n _ ih => exact (tryIntern_sound ih n).2
  | tryInternBatch sched jobs _ ih => exact (tryInternBatch_sound ih sched jobs).2
  | tryInternMissing sched jobs _ hknown hmissing hresult ih =>
    exact (tryInternMissing_sound ih sched hknown hmissing hresult).2

theorem Rep.lookup_iff (h : Rep hash t) (n : SymbolName) (i : ℕ) :
    t.lookup hash n = some i ↔ t.names[i]? = some n := by
  have hfind := (h.holds (shardOf (hash n))).find rfl
    (fun slot => slot.value &&& PENDING == 0 && t.names[slot.value]? == some n) fun slot _ _ => by
      rw [Bool.and_eq_true, beq_iff_eq, beq_iff_eq, idOf_eq_some h.nodup, and_iff_right_iff_imp]
      intro hget
      have hlt := (List.getElem?_eq_some_iff.mp hget).1
      have hle : t.names.length ≤ PENDING := h.len_le
      exact and_pending_of_lt (by omega)
  rw [← idOf_eq_some h.nodup, lookup]
  simp only [Bool.and_assoc]
  rw [hfind]
  cases idOf t.names n with
  | none => simp
  | some v => simp

/-- **The representation invariant, spelled out.** -/
theorem Rep.consistent (h : Rep hash t) : Consistent hash t := by
  have hle : t.names.length ≤ PENDING := h.len_le
  refine ⟨h.nodup, fun s => ?_, fun s slot hslot => ?_, h.pending, h.assigned, h.flags, h.defs,
    h.lookup_iff⟩
  · have hnodup : ((t.names.zipIdx.filter fun entry => shardOf (hash entry.1) = s).map
        fun entry => (⟨low32 (hash entry.1), entry.2⟩ : Slot)).Nodup := by
      have hzip : t.names.zipIdx.Nodup := .of_map Prod.snd (by
        rw [List.zipIdx_map_snd]
        exact List.nodup_range' _)
      refine List.Nodup.map_on ?_ (hzip.filter _)
      intro x hx y hy heq
      have hx' := List.mk_mem_zipIdx_iff_getElem?.mp (List.mem_of_mem_filter hx)
      have hy' := List.mk_mem_zipIdx_iff_getElem?.mp (List.mem_of_mem_filter hy)
      have hidx : x.2 = y.2 := congrArg Slot.value heq
      rw [hidx, hy', Option.some.injEq] at hx'
      exact Prod.ext hx'.symm hidx
    rw [List.perm_ext_iff_of_nodup (h.holds s).nodup hnodup]
    intro slot
    rw [(h.holds s).mem, List.mem_map]
    constructor
    · intro ⟨n, hn, hs, h32⟩
      rw [idOf_eq_some h.nodup] at hn
      refine ⟨(n, slot.value), List.mem_filter.mpr
        ⟨List.mk_mem_zipIdx_iff_getElem?.mpr hn, decide_eq_true hs⟩, ?_⟩
      rw [← h32]
    · intro ⟨entry, hentry, heq⟩
      obtain ⟨hmem, hs⟩ := List.mem_filter.mp hentry
      have hget := List.mk_mem_zipIdx_iff_getElem?.mp hmem
      rw [← heq]
      exact ⟨entry.1, (idOf_eq_some h.nodup).mpr hget, of_decide_eq_true hs, rfl⟩
  · have := h.value_lt hslot
    exact and_pending_of_lt (by omega)

/-- **Runs of the interner are sound (proved)**, as long as `try_intern_missing` is called with
batches that fit its widths. -/
theorem calls_sound (hash : SymbolName → UInt64) : Sound hash MissingFits := by
  intro t h
  refine ⟨h.rep.consistent, fun n => (tryIntern_sound h.rep n).1,
    fun sched jobs => (tryInternBatch_sound h.rep sched jobs).1,
    fun sched jobs result hknown hmissing hresult => ?_⟩
  exact (tryInternMissing_sound h.rep sched hknown hmissing hresult).1

/-- A job that `findAll` has filled: `k` times a known name, and then one that is not found. -/
def wideJob (known new : SymbolName) (k : ℕ) : InternJob where
  position := 0
  names := List.replicate k known ++ [new]
  ids := List.replicate k 0 ++ [PENDING]
  ids_length := by rw [List.length_append, List.length_append, List.length_replicate,
    List.length_replicate]; rfl

theorem missingIndices_wideJob (known new : SymbolName) (k : ℕ) :
    missingIndices (wideJob known new k) = [k % 2 ^ 32] := by
  have hold : ((List.replicate k 0).zipIdx.filter fun id => id.1 &&& PENDING != 0) = [] := by
    rw [List.filter_eq_nil_iff]
    intro id hid
    have hzero := List.eq_of_mem_replicate (List.fst_mem_of_mem_zipIdx hid)
    rw [hzero]
    decide
  have hnew : ([((PENDING, k) : ℕ × ℕ)].filter fun id => id.1 &&& PENDING != 0) =
      [(PENDING, k)] := by
    rw [List.filter_eq_self]
    intro id hid
    rw [List.mem_singleton.mp hid]
    show (PENDING &&& PENDING != 0) = true
    decide
  rw [missingIndices, wideJob, List.zipIdx_append, List.filter_append, hold, List.length_replicate,
    Nat.zero_add, List.nil_append, List.zipIdx_singleton, hnew]
  rfl

/-- **A missing name beyond 32 bits is taken for the one at the truncated index.** -/
theorem tryInternMissing_wideJob (h : Rep hash t) (sched : Schedule) {known new : SymbolName}
    (hknown : known ∈ t.names) {k : ℕ} (hpos : 0 < k) (hk : k % 2 ^ 32 = 0) :
    ∃ t' ids, t.tryInternMissing hash sched [wideJob known new k] = some (t', .ok ids) := by
  have horder : positionOrder [wideJob known new k] = [0] := rfl
  have hplaces : missingPlaces [wideJob known new k] [0] = [(0, 0)] := by
    simp only [missingPlaces, List.flatMap_cons, List.flatMap_nil, List.append_nil,
      List.getElem?_cons_zero, Option.map_some, Option.getD_some, missingIndices_wideJob, hk,
      List.map_cons, List.map_nil]
  have hnames : missingNames [wideJob known new k] [0] = [known] := by
    obtain ⟨k, rfl⟩ := Nat.exists_eq_succ_of_ne_zero hpos.ne'
    rw [missingNames, hplaces, List.map_singleton, placeName_eq (List.getElem?_cons_zero)]
    show (List.replicate (k + 1) known ++ [new])[0]? = some known
    rw [List.replicate_succ, List.cons_append, List.getElem?_cons_zero]
  have hintern : t.internNames hash [known] = (t, some [t.names.idxOf known]) := by
    simp only [internNames, internName_of_mem h.toIndex hknown]
  have hsmall : [known].length < MIN_PARALLEL_MISSES := by
    rw [List.length_singleton]
    decide
  have hdistinct : adjacentDistinct [wideJob known new k] [0] = true := rfl
  rw [tryInternMissing, horder, if_pos hdistinct, internMissing, hnames, if_pos hsmall,
    internMissingSmall, hnames, hintern]
  exact ⟨_, _, rfl⟩

theorem known_wideJob {known : SymbolName} (hknown : t.names[0]? = some known) (new : SymbolName)
    (k : ℕ) : Known t [wideJob known new k] := by
  intro job hjob i id n hid hn hmark
  rw [List.mem_singleton.mp hjob, wideJob] at hid hn
  simp only at hid hn
  by_cases hi : i < k
  · rw [List.getElem?_append_left (by rwa [List.length_replicate]), List.getElem?_replicate,
      if_pos hi, Option.some.injEq] at hid hn
    rw [← hid, ← hn, hknown]
  · rw [List.getElem?_append_right (by rw [List.length_replicate]; omega)] at hid
    rw [List.mem_singleton.mp (List.mem_of_getElem? hid)] at hmark
    exact absurd hmark (by decide)

/-- A run of two calls: `a` alone, and then a batch of `a` and `b` in which only `a` was found. -/
theorem calls_sound_two_calls :
    ∃ t', (∀ sched, (SymbolTable.new.tryIntern (fun _ => 0) ⟨[97], none⟩).1.tryInternMissing
        (fun _ => 0) sched [wideJob ⟨[97], none⟩ ⟨[98], none⟩ 1] = some (t', .ok [[0, 1]])) ∧
      t'.names = [⟨[97], none⟩, ⟨[98], none⟩] ∧ Consistent (fun _ => 0) t' := by
  have hreach : Reachable (fun _ => 0) MissingFits
      (SymbolTable.new.tryIntern (fun _ => 0) ⟨[97], none⟩).1 := .tryIntern _ .new
  have hmissing : MissingFits [wideJob ⟨[97], none⟩ ⟨[98], none⟩ 1] :=
    ⟨narrow_of_canPartition (by decide), by decide⟩
  have hresult : ∀ sched,
      (SymbolTable.new.tryIntern (fun _ => 0) ⟨[97], none⟩).1.tryInternMissing (fun _ => 0) sched
        [wideJob ⟨[97], none⟩ ⟨[98], none⟩ 1] =
      some (((SymbolTable.new.tryIntern (fun _ => 0) ⟨[97], none⟩).1.internMissingSmall
        (fun _ => 0) [wideJob ⟨[97], none⟩ ⟨[98], none⟩ 1] [0]).1, .ok [[0, 1]]) := fun _ => rfl
  let sched : Schedule :=
    ⟨2, fun n => [n], fun _ => List.sum_singleton, fun l => l, List.Perm.refl⟩
  exact ⟨_, hresult, rfl, (calls_sound _ _ (.tryInternMissing sched _ hreach
    (known_wideJob rfl _ 1) hmissing (hresult sched))).1⟩

theorem batchNames_wideJob {known new : SymbolName} (hnames : t.names = [known])
    (hne : new ≠ known) (k : ℕ) : batchNames t [wideJob known new k] = {new} := by
  ext n
  rw [Set.mem_singleton_iff]
  constructor
  · intro ⟨hn, job, hjob, hmem⟩
    rw [List.mem_singleton.mp hjob, wideJob, List.mem_append] at hmem
    rcases hmem with hmem | hmem
    · rw [hnames, List.eq_of_mem_replicate hmem] at hn
      exact absurd (List.mem_singleton_self known) hn
    · exact List.mem_singleton.mp hmem
  · intro hn
    refine ⟨?_, _, List.mem_singleton_self _, List.mem_append_right _ (List.mem_singleton.mpr hn)⟩
    rw [hnames, hn]
    exact fun hmem => hne (List.mem_singleton.mp hmem)

/-- **The widths matter.**  A table of one name and limit 1 does not refuse a job of
`2 ^ 32` times that name and one new name. -/
theorem not_sound_of_wide : ¬ ∃ hash, Sound hash fun _ => True := by
  intro ⟨hash, hsound⟩
  let a : SymbolName := ⟨[97], none⟩
  let b : SymbolName := ⟨[98], none⟩
  have hfits : Fits .new [a] := by
    show 1 ≤ MAX_SYMBOLS
    decide
  obtain ⟨t, ht, hint⟩ := (tryIntern_spec (rep_new hash) a).1 hfits
  have hnames : t.names = [a] := hint.names
  have hreach : Reachable hash (fun _ => True) (t.setLimit 1) := by
    have hone := Reachable.tryIntern a (@Reachable.new hash fun _ => True)
    rw [ht] at hone
    exact hone.setLimit 1
  let sched : Schedule :=
    ⟨2, fun n => [n], fun _ => List.sum_singleton, fun l => l, List.Perm.refl⟩
  obtain ⟨t', ids, hresult⟩ := @tryInternMissing_wideJob hash _ (hint.rep.setLimit 1) sched a b
    (show a ∈ t.names by rw [hnames]; exact List.mem_singleton_self a) (2 ^ 32) (by decide)
    (by decide)
  have hknown : Known (t.setLimit 1) [wideJob a b (2 ^ 32)] := by
    refine known_wideJob ?_ b _
    show t.names[0]? = some a
    rw [hnames]
    rfl
  have hfails := ((hsound _ hreach).2.2.2 sched _ _ hknown trivial hresult).1
  rw [@batchNames_wideJob (t.setLimit 1) a b hnames (by decide), Set.ncard_singleton] at hfails
  have hroom : (t.setLimit 1).limit - (t.setLimit 1).names.length < 1 := by
    show min 1 MAX_SYMBOLS - t.names.length < 1
    rw [hnames]
    decide
  exact absurd (congrArg Prod.snd (hfails hroom)) (by simp)

/-- **The paths of the interner agree exactly under `NewNamesFit` (proved).** -/
theorem pathsAgree_iff (h : Reachable hash MissingFits t) (hdistinct : DistinctPositions jobs)
    (hfits : Fits t (orderNames jobs (positionOrder jobs))) :
    PathsAgree hash t jobs ↔ NewNamesFit t jobs :=
  pathsAgree_iff_of_rep h.rep hdistinct hfits

/-- Two jobs that share a name agree on an empty table, for a hash that tells no names apart. -/
theorem pathsAgree_two_jobs :
    PathsAgree (fun _ => 0) .new
      [⟨7, [⟨[98], none⟩, ⟨[97], none⟩], [0, 0], rfl⟩, ⟨3, [⟨[97], none⟩], [0], rfl⟩] :=
  (pathsAgree_iff Reachable.new (by unfold DistinctPositions; decide)
    (by unfold Fits; decide)).mpr (newNamesFit_of_canPartition (by decide))

/-- A job of `k` times one name, and then two others. -/
def tailJob (first c b : SymbolName) (k : ℕ) : InternJob where
  position := 0
  names := List.replicate k first ++ [c, b]
  ids := List.replicate (k + 2) 0
  ids_length := by rw [List.length_append, List.length_replicate, List.length_replicate]; rfl

/-- A name of the tail occurs at its own index only. -/
theorem isLeast_tailJob {first c b n : SymbolName} (k : ℕ) (hfirst : n ≠ first) {i : ℕ}
    (hi : [c, b][i]? = some n) (hunique : ∀ j, [c, b][j]? = some n → i ≤ j) :
    IsLeast (occurrences [tailJob first c b k] n) (toLex (0, k + i)) := by
  constructor
  · refine ⟨_, List.mem_singleton_self _, k + i, ?_, rfl⟩
    rw [tailJob, List.getElem?_append_right (by rw [List.length_replicate]; omega),
      List.length_replicate, Nat.add_sub_cancel_left, hi]
  · intro o ⟨job, hjob, g, hg, ho⟩
    rw [List.mem_singleton.mp hjob, tailJob] at hg ho
    simp only at hg ho
    rw [ho, Prod.Lex.toLex_le_toLex]
    refine .inr ⟨rfl, ?_⟩
    by_cases hgk : g < k
    · rw [List.getElem?_append_left (by rwa [List.length_replicate]), List.getElem?_replicate,
        if_pos hgk, Option.some.injEq] at hg
      exact absurd hg.symm hfirst
    · rw [List.getElem?_append_right (by rw [List.length_replicate]; omega),
        List.length_replicate] at hg
      have := hunique _ hg
      show k + i ≤ g
      omega

/-- **Saturation shows.**  Two new names behind `2 ^ 32` others are numbered by
contents. -/
theorem not_pathsAgree_of_tail : ¬ ∃ hash, ∀ t jobs, Reachable hash MissingFits t →
    DistinctPositions jobs → Fits t (orderNames jobs (positionOrder jobs)) →
    PathsAgree hash t jobs := by
  intro ⟨hash, hagree⟩
  let a : SymbolName := ⟨[97], none⟩
  let b : SymbolName := ⟨[98], none⟩
  let c : SymbolName := ⟨[99], none⟩
  have hdistinct : DistinctPositions [tailJob a c b (2 ^ 32)] := List.nodup_singleton _
  have hfits : Fits .new (orderNames [tailJob a c b (2 ^ 32)]
      (positionOrder [tailJob a c b (2 ^ 32)])) := by
    have hsub : fresh [] (orderNames [tailJob a c b (2 ^ 32)]
        (positionOrder [tailJob a c b (2 ^ 32)])) ⊆ [a, c, b] := fun n hn => ?_
    · exact (List.subperm_of_subset (nodup_fresh _ _) hsub).length_le.trans
        (show 3 ≤ MAX_SYMBOLS by decide)
    obtain ⟨job, hjob, hn⟩ := (mem_orderNames (positionOrder_perm _)).mp
      ((mem_fresh _ _).mp hn).1
    rw [List.mem_singleton.mp hjob, tailJob, List.mem_append] at hn
    rcases hn with hn | hn
    · rw [List.eq_of_mem_replicate hn]
      exact List.mem_cons_self
    · exact List.mem_cons_of_mem _ hn
  have hcond := (byFirstOccurrence_internPending_iff (rep_new hash) hdistinct hfits
    (List.Perm.refl _)).mp ((hagree _ _ Reachable.new hdistinct hfits).threePasses _ (.refl _))
  have hle := hcond c b 0 (2 ^ 32 + 0) (2 ^ 32 + 1) List.not_mem_nil List.not_mem_nil
    (isLeast_tailJob _ (by decide) rfl fun j _ => Nat.zero_le j)
    (isLeast_tailJob _ (by decide) rfl fun j hj => ?_) (by decide) (by decide)
  · exact absurd hle (by decide)
  · cases j with
    | zero => exact absurd hj (by decide)
    | succ j => omega

end Invariant

end Qld.Symbols
