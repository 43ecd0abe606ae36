import Mathlib.Data.Set.Card
import Qld.Symbols.InternMissing

/-!
# The paths of the interner

Every path of the interner against one statement of what interning is.

* `occurrences`, `Earlier`, `firstOccurrenceId` — the ID a name is to get: its own if it is known,
  and otherwise by the number of new names that occur earlier;
* `newNames_pairwise` — interning jobs by position appends the new names in the order
  of their first occurrences;
* `byFirstOccurrence_internPending_iff` — the three passes intern in order exactly under
  `InContentsOrder`;
* `PathsAgree`, `pathsAgree_iff_of_rep` — all paths agree exactly under `NewNamesFit`.

The three passes keep an occurrence's index in 32 bits, saturated; `InContentsOrder` is when that
does not show.  `intern_missing` keeps it in 32 bits too, but wraps it.
-/

namespace Qld.Symbols

open Qld.Lib SymbolTable

/-! ### Occurrences -/

/-- Where a name occurs in a batch: the position of the job, and the index there. -/
def occurrences (jobs : List InternJob) (n : SymbolName) : Set Occurrence :=
  {o | ∃ job ∈ jobs, ∃ i : ℕ, job.names[i]? = some n ∧ o = toLex (job.position, i)}

/-- `m` occurs before all occurrences of `n`. -/
def Earlier (jobs : List InternJob) (m n : SymbolName) : Prop :=
  ∃ o o', IsLeast (occurrences jobs m) o ∧ IsLeast (occurrences jobs n) o' ∧ o < o'

theorem Earlier.asymm {jobs : List InternJob} (m n : SymbolName) (h : Earlier jobs m n) :
    ¬ Earlier jobs n m := by
  intro h'
  obtain ⟨o, o', ho, ho', hlt⟩ := h
  obtain ⟨p, p', hp, hp', hlt'⟩ := h'
  rw [ho.unique hp', ho'.unique hp] at hlt
  exact lt_asymm hlt hlt'

/-- The ID of a name of a batch: a known name keeps its own, and a new one gets the length of the
table plus the number of new names that occur earlier. -/
noncomputable def firstOccurrenceId (t : SymbolTable) (jobs : List InternJob) (n : SymbolName) : ℕ :=
  if n ∈ t.names then t.names.idxOf n
  else t.names.length + {m | m ∉ t.names ∧ Earlier jobs m n}.ncard

/-- The new names of a batch, jobs by position. -/
def newNames (t : SymbolTable) (jobs : List InternJob) : List SymbolName :=
  fresh t.names (orderNames jobs (positionOrder jobs))

/-- No two jobs have one position. -/
def DistinctPositions (jobs : List InternJob) : Prop :=
  (jobs.map InternJob.position).Nodup

/-! ### Jobs by position -/

section Order

variable {jobs : List InternJob}

theorem positionOrder_perm (jobs : List InternJob) :
    (positionOrder jobs).Perm (List.range jobs.length) := List.perm_insertionSort _ _

theorem positionOrder_sorted (jobs : List InternJob) :
    (positionOrder jobs).Pairwise fun i j => jobPosition jobs i ≤ jobPosition jobs j := by
  have : Std.Total fun i j => jobPosition jobs i ≤ jobPosition jobs j :=
    ⟨fun i j => le_total _ _⟩
  have : IsTrans ℕ fun i j => jobPosition jobs i ≤ jobPosition jobs j :=
    ⟨fun i j k => le_trans⟩
  exact List.pairwise_insertionSort _ _

/-- Neighbours that differ make a sorted list strictly sorted. -/
theorem adjacentDistinct_iff {order : List ℕ}
    (hsorted : order.Pairwise fun i j => jobPosition jobs i ≤ jobPosition jobs j) :
    adjacentDistinct jobs order = true ↔
      order.Pairwise fun i j => jobPosition jobs i < jobPosition jobs j := by
  induction order with
  | nil => exact ⟨fun _ => List.Pairwise.nil, fun _ => rfl⟩
  | cons i order ih =>
    obtain ⟨hi, hsorted⟩ := List.pairwise_cons.mp hsorted
    cases order with
    | nil => exact ⟨fun _ => List.pairwise_singleton _ _, fun _ => rfl⟩
    | cons j order =>
      rw [adjacentDistinct, Bool.and_eq_true, bne_iff_ne, ih hsorted]
      constructor
      · intro ⟨hne, hstrict⟩
        refine List.pairwise_cons.mpr ⟨fun k hk => ?_, hstrict⟩
        have hij := hi j List.mem_cons_self
        rcases List.mem_cons.mp hk with rfl | hk
        · omega
        · have := (List.pairwise_cons.mp hstrict).1 k hk
          omega
      · intro hstrict
        obtain ⟨hlt, hstrict⟩ := List.pairwise_cons.mp hstrict
        have := hlt j List.mem_cons_self
        exact ⟨by omega, hstrict⟩

theorem map_jobPosition_range (jobs : List InternJob) :
    (List.range jobs.length).map (jobPosition jobs) = jobs.map InternJob.position := by
  apply List.ext_getElem?
  intro j
  rw [List.getElem?_map, List.getElem?_map]
  by_cases hj : j < jobs.length
  · rw [List.getElem?_range hj, Option.map_some, jobPosition, List.getElem?_eq_getElem hj]
    rfl
  · simp [Nat.le_of_not_lt hj]

/-- **The check of neighbours finds shared positions.** -/
theorem adjacentDistinct_positionOrder (jobs : List InternJob) :
    adjacentDistinct jobs (positionOrder jobs) = true ↔ DistinctPositions jobs := by
  rw [adjacentDistinct_iff (positionOrder_sorted jobs), DistinctPositions,
    ← map_jobPosition_range, ← ((positionOrder_perm jobs).map _).nodup_iff, List.Nodup,
    List.pairwise_map]
  constructor
  · intro h
    exact h.imp fun hlt => Nat.ne_of_lt hlt
  · intro h
    exact (positionOrder_sorted jobs).imp₂ (fun _ _ hle hne => lt_of_le_of_ne hle hne) h

/-- The occurrence at a place. -/
def occurrenceAt (jobs : List InternJob) (p : ℕ × ℕ) : Occurrence :=
  toLex (jobPosition jobs p.1, p.2)

theorem jobPlaces_sorted (hdistinct : DistinctPositions jobs) :
    (jobPlaces jobs (positionOrder jobs)).flatten.Pairwise fun p q =>
      occurrenceAt jobs p < occurrenceAt jobs q := by
  have hstrict := (adjacentDistinct_iff (positionOrder_sorted jobs)).mp
    ((adjacentDistinct_positionOrder jobs).mpr hdistinct)
  rw [List.pairwise_flatten]
  constructor
  · intro places hplaces
    obtain ⟨j, -, rfl⟩ := List.mem_map.mp hplaces
    refine List.pairwise_map.mpr (List.pairwise_lt_range.imp fun hlt => ?_)
    exact Prod.Lex.toLex_lt_toLex.mpr (.inr ⟨rfl, hlt⟩)
  · refine List.pairwise_map.mpr (hstrict.imp fun {i j} hlt p hp q hq => ?_)
    obtain ⟨_, -, rfl⟩ := List.mem_map.mp hp
    obtain ⟨_, -, rfl⟩ := List.mem_map.mp hq
    exact Prod.Lex.toLex_lt_toLex.mpr (.inl hlt)

theorem jobPosition_eq {j : ℕ} {job : InternJob} (hjob : jobs[j]? = some job) :
    jobPosition jobs j = job.position := by
  rw [jobPosition, hjob]
  rfl

/-- What stands at a place is an occurrence of its name. -/
theorem occurrenceAt_mem {order : List ℕ} {p : ℕ × ℕ}
    (hp : p ∈ (jobPlaces jobs order).flatten) :
    occurrenceAt jobs p ∈ occurrences jobs (placeName jobs p) := by
  obtain ⟨j, i, job, rfl, hjob, hi⟩ := job_of_mem_jobPlaces hp
  have hget := List.getElem?_eq_getElem hi
  refine ⟨job, List.mem_of_getElem? hjob, i, ?_, ?_⟩
  · rw [placeName_eq hjob hget, hget]
  · rw [occurrenceAt, jobPosition_eq hjob]

theorem exists_place {n : SymbolName} {o : Occurrence} (ho : o ∈ occurrences jobs n) :
    ∃ p ∈ (jobPlaces jobs (positionOrder jobs)).flatten,
      placeName jobs p = n ∧ occurrenceAt jobs p = o := by
  obtain ⟨job, hjob, i, hi, rfl⟩ := ho
  obtain ⟨j, hj⟩ := List.mem_iff_getElem?.mp hjob
  refine ⟨(j, i), mem_jobPlaces (positionOrder_perm jobs) hj (List.getElem?_eq_some_iff.mp hi).1,
    placeName_eq hj hi, ?_⟩
  rw [occurrenceAt, jobPosition_eq hj]

/-- **The first of the sequence is the first occurrence.** -/
theorem isLeast_occurrence (hdistinct : DistinctPositions jobs) {n : SymbolName}
    (hn : n ∈ orderNames jobs (positionOrder jobs)) :
    ∃ p, (jobPlaces jobs (positionOrder jobs)).flatten[
        (orderNames jobs (positionOrder jobs)).idxOf n]? = some p ∧
      IsLeast (occurrences jobs n) (occurrenceAt jobs p) := by
  have hsorted := jobPlaces_sorted hdistinct
  have hplace := @exists_place jobs n
  have hocc := @occurrenceAt_mem jobs (positionOrder jobs)
  rw [← jobPlaces_names] at hn ⊢
  generalize (jobPlaces jobs (positionOrder jobs)).flatten = places at hsorted hplace hocc hn ⊢
  have hlt := List.idxOf_lt_length_of_mem hn
  have hname := List.getElem_idxOf hlt
  rw [List.length_map] at hlt
  rw [List.getElem_map] at hname
  refine ⟨_, List.getElem?_eq_getElem hlt, ?_, fun o ho => ?_⟩
  · have hmem := hocc (List.getElem_mem hlt)
    rwa [hname] at hmem
  · -- A place before the first one of the name has another name.
    obtain ⟨q, hq, hqn, rfl⟩ := hplace ho
    obtain ⟨g, hg, rfl⟩ := List.mem_iff_getElem.mp hq
    have hle : (places.map (placeName jobs)).idxOf n ≤ g := by
      apply idxOf_le_of_getElem?
      rw [List.getElem?_map, List.getElem?_eq_getElem hg, Option.map_some, hqn]
    rcases Nat.eq_or_lt_of_le hle with heq | hlt'
    · simp only [heq, le_refl]
    · exact (List.pairwise_iff_getElem.mp hsorted _ _ hlt hg hlt').le

/-- **New names are appended by first occurrence.** -/
theorem newNames_pairwise (hdistinct : DistinctPositions jobs) (t : SymbolTable) :
    (newNames t jobs).Pairwise (Earlier jobs) := by
  refine (fresh_pairwise_idxOf t.names _).imp_of_mem fun {m n} hm hn hlt => ?_
  rw [newNames, mem_fresh] at hm hn
  obtain ⟨p, hp, hpl⟩ := isLeast_occurrence hdistinct hm.1
  obtain ⟨q, hq, hql⟩ := isLeast_occurrence hdistinct hn.1
  obtain ⟨hp', hpe⟩ := List.getElem?_eq_some_iff.mp hp
  obtain ⟨hq', hqe⟩ := List.getElem?_eq_some_iff.mp hq
  refine ⟨_, _, hpl, hql, ?_⟩
  rw [← hpe, ← hqe]
  exact List.pairwise_iff_getElem.mp (jobPlaces_sorted hdistinct) _ _ hp' hq' hlt

/-- **The ID of a name is what its first occurrence says.** -/
theorem idxOf_newNames (hdistinct : DistinctPositions jobs) (t : SymbolTable) {n : SymbolName}
    (hn : n ∈ orderNames jobs (positionOrder jobs)) :
    (t.names ++ newNames t jobs).idxOf n = firstOccurrenceId t jobs n := by
  rw [firstOccurrenceId]
  split
  · next hmem => exact List.idxOf_append_of_mem hmem
  · next hnew =>
    have hfresh : n ∈ newNames t jobs := (mem_fresh _ _).mpr ⟨hn, hnew⟩
    have hset : {m | m ∉ t.names ∧ Earlier jobs m n} =
        ((newNames t jobs).take ((newNames t jobs).idxOf n)).toFinset := by
      ext m
      rw [List.coe_toFinset, Set.mem_ofPred_eq, Set.mem_ofPred_eq,
        mem_take_idxOf_iff Earlier.asymm (newNames_pairwise hdistinct t) hfresh]
      constructor
      · intro ⟨hm, hearlier⟩
        refine ⟨(mem_fresh _ _).mpr ⟨?_, hm⟩, hearlier⟩
        obtain ⟨o, -, ⟨⟨job, hjob, i, hi, -⟩, -⟩, -⟩ := hearlier
        exact (mem_orderNames (positionOrder_perm jobs)).mpr
          ⟨job, hjob, List.mem_of_getElem? hi⟩
      · intro ⟨hm, hearlier⟩
        exact ⟨((mem_fresh _ _).mp hm).2, hearlier⟩
    have hnodup : (newNames t jobs).Nodup := nodup_fresh _ _
    rw [hset, Set.ncard_coe_finset, List.toFinset_card_of_nodup (hnodup.sublist
      (List.take_sublist _ _)), List.length_take, List.idxOf_append_of_notMem hnew,
      min_eq_left (List.idxOf_lt_length_of_mem hfresh).le]

end Order

/-! ### The three passes -/

section Passes

variable {hash : SymbolName → UInt64} {t : SymbolTable} {jobs : List InternJob}

/-- New names whose first occurrences are in one job, at indices that do not fit 32 bits or at the
last one that does, come in the order of their contents. -/
def InContentsOrder (t : SymbolTable) (jobs : List InternJob) : Prop :=
  ∀ (m n : SymbolName) (position i k : ℕ), m ∉ t.names → n ∉ t.names →
    IsLeast (occurrences jobs m) (toLex (position, i)) →
    IsLeast (occurrences jobs n) (toLex (position, k)) →
    U32_MAX ≤ i → i < k → m.contents ≤ n.contents

/-- An occurrence as the three passes keep it. -/
def saturate (o : Occurrence) : Occurrence := toLex ((ofLex o).1, min (ofLex o).2 U32_MAX)

theorem saturate_mono {o o' : Occurrence} (h : o ≤ o') : saturate o ≤ saturate o' := by
  rw [Prod.Lex.le_iff] at h
  refine Prod.Lex.toLex_le_toLex.mpr ?_
  rcases h with h | ⟨h, h'⟩
  · exact .inl h
  · exact .inr ⟨h, by omega⟩

theorem firstOf_saturate {n : SymbolName} {o : Occurrence}
    (h : IsLeast (occurrences jobs n) o) : FirstOf (requests jobs) n (saturate o) := by
  obtain ⟨⟨job, hjob, i, hi, rfl⟩, hleast⟩ := h
  obtain ⟨j, hj⟩ := List.mem_iff_getElem?.mp hjob
  refine ⟨⟨⟨j, i, n, toLex (job.position, min i U32_MAX)⟩, mem_requests.mpr ⟨job, hj, hi, rfl⟩,
    rfl, rfl⟩, fun r hr hrn => ?_⟩
  obtain ⟨job', hjob', hname, hocc⟩ := mem_requests.mp hr
  rw [hrn] at hname
  have hle := hleast ⟨job', List.mem_of_getElem? hjob', r.index, hname, rfl⟩
  rw [hocc]
  exact saturate_mono hle

theorem beforeBy_iff {m n : SymbolName} {o o' : Occurrence} (hm : IsLeast (occurrences jobs m) o)
    (hn : IsLeast (occurrences jobs n) o') :
    BeforeBy (requests jobs) m n ↔
      toLex (saturate o, m.contents) ≤ toLex (saturate o', n.contents) := by
  constructor
  · intro h
    exact h _ _ (firstOf_saturate hm) (firstOf_saturate hn)
  · intro h first first' hf hf'
    rwa [hf.unique (firstOf_saturate hm), hf'.unique (firstOf_saturate hn)]

/-- **When the order of the first occurrences survives saturation.** -/
theorem newNames_beforeBy_iff (hdistinct : DistinctPositions jobs) :
    (newNames t jobs).Pairwise (BeforeBy (requests jobs)) ↔ InContentsOrder t jobs := by
  constructor
  · intro h m n position i k hm hn hmi hnk hi hik
    have hmem : ∀ {x : SymbolName} {o : Occurrence}, x ∉ t.names → IsLeast (occurrences jobs x) o →
        x ∈ newNames t jobs := by
      intro x o hx hleast
      obtain ⟨job, hjob, g, hg, -⟩ := hleast.1
      exact (mem_fresh _ _).mpr ⟨(mem_orderNames (positionOrder_perm jobs)).mpr
        ⟨job, hjob, List.mem_of_getElem? hg⟩, hx⟩
    have hearlier : Earlier jobs m n :=
      ⟨_, _, hmi, hnk, Prod.Lex.toLex_lt_toLex.mpr (.inr ⟨rfl, hik⟩)⟩
    have hbefore := pairwise_of_pairwise Earlier.asymm (newNames_pairwise hdistinct t) h
      (hmem hm hmi) (hmem hn hnk) hearlier
    rw [beforeBy_iff hmi hnk, Prod.Lex.toLex_le_toLex] at hbefore
    have hsat : saturate (toLex (position, i)) = saturate (toLex (position, k)) := by
      simp only [saturate, ofLex_toLex, min_eq_right hi, min_eq_right (hi.trans hik.le)]
    rw [hsat] at hbefore
    exact (hbefore.resolve_left (lt_irrefl _)).2
  · intro h
    refine (newNames_pairwise hdistinct t).imp_of_mem fun {m n} hm hn hearlier => ?_
    rw [newNames, mem_fresh] at hm hn
    obtain ⟨o, o', ho, ho', hlt⟩ := hearlier
    rw [beforeBy_iff ho ho', Prod.Lex.toLex_le_toLex]
    rcases (saturate_mono hlt.le).lt_or_eq with hsat | hsat
    · exact .inl hsat
    · refine .inr ⟨hsat, ?_⟩
      -- Equal after saturation: one job, and indices that do not fit.
      obtain ⟨hpos, hidx⟩ := Prod.mk.inj (toLex_inj.mp hsat)
      rw [Prod.Lex.lt_iff] at hlt
      have hlt' := hlt.resolve_left (by rw [hpos]; exact Nat.lt_irrefl _)
      have ho1 : o = toLex ((ofLex o).1, (ofLex o).2) := rfl
      have ho2 : o' = toLex ((ofLex o).1, (ofLex o').2) := by rw [hpos]; rfl
      exact h m n _ _ _ hm.2 hn.2 (ho1 ▸ ho) (ho2 ▸ ho') (by omega) hlt'.2

theorem mem_orderNames_iff_request (n : SymbolName) :
    n ∈ orderNames jobs (positionOrder jobs) ↔ n ∈ (requests jobs).map Request.name := by
  rw [mem_orderNames (positionOrder_perm jobs), List.mem_map]
  constructor
  · intro ⟨job, hjob, hn⟩
    exact exists_request hjob hn
  · intro ⟨r, hr, hrn⟩
    obtain ⟨job, hjob, hname, -⟩ := mem_requests.mp hr
    exact ⟨job, List.mem_of_getElem? hjob, List.mem_of_getElem? (hrn ▸ hname)⟩

/-- **Three passes intern in order exactly under that condition.** -/
theorem internPending_names_iff (h : Rep hash t) (hdistinct : DistinctPositions jobs)
    (hfits : Fits t (orderNames jobs (positionOrder jobs))) {order : List Request}
    (horder : order.Perm (requests jobs)) :
    (∃ t', t.internPending hash jobs order = (t', .ok (jobIds t'.names jobs)) ∧
      Interned hash t (newNames t jobs) t') ↔ InContentsOrder t jobs := by
  obtain ⟨hperm, hiff⟩ := @fits_congr t _ _ (@mem_orderNames_iff_request jobs)
  obtain ⟨t', news, hresult, hint, hnews, hsorted⟩ :=
    (internPending_spec h jobs horder).1 (hiff.mp hfits)
  rw [← newNames_beforeBy_iff hdistinct]
  constructor
  · intro ⟨t'', hresult', hint'⟩
    rw [hresult, Prod.mk.injEq] at hresult'
    have happend := hint.names
    rw [hresult'.1, hint'.names, List.append_cancel_left_eq] at happend
    rwa [happend]
  · intro hpairwise
    have heq : news = newNames t jobs := by
      refine (hnews.trans hperm.symm).eq_of_pairwise ?_ hsorted hpairwise
      intro m n hm hn hmn hnm
      have hm' := ((mem_fresh _ _).mp ((hnews.trans hperm.symm).mem_iff.mp hm)).1
      have hn' := ((mem_fresh _ _).mp hn).1
      obtain ⟨p, -, hp⟩ := isLeast_occurrence hdistinct hm'
      obtain ⟨q, -, hq⟩ := isLeast_occurrence hdistinct hn'
      have hkey := le_antisymm ((beforeBy_iff hp hq).mp hmn) ((beforeBy_iff hq hp).mp hnm)
      exact SymbolName.contents_inj (Prod.mk.inj (toLex_inj.mp hkey)).2
    exact ⟨t', hresult, heq ▸ hint⟩

end Passes

/-! ### All paths -/

section Paths

variable {hash : SymbolName → UInt64} {t : SymbolTable} {jobs : List InternJob}

/-- A path interned the batch by first occurrence. -/
def ByFirstOccurrence (hash : SymbolName → UInt64) (t : SymbolTable) (jobs : List InternJob)
    (result : SymbolTable × Except Error (List (List ℕ))) : Prop :=
  ∃ t', result = (t', .ok (jobs.map fun job => job.names.map (firstOccurrenceId t jobs))) ∧
    Interned hash t (newNames t jobs) t'

theorem jobIds_newNames (hdistinct : DistinctPositions jobs) (t : SymbolTable) :
    jobIds (t.names ++ newNames t jobs) jobs =
      jobs.map fun job => job.names.map (firstOccurrenceId t jobs) := by
  rw [jobIds]
  refine List.map_congr_left fun job hjob => List.map_congr_left fun n hn => ?_
  exact idxOf_newNames hdistinct t
    ((mem_orderNames (positionOrder_perm jobs)).mpr ⟨job, hjob, hn⟩)

theorem InternsInOrder.byFirstOccurrence {result : SymbolTable × Except Error (List (List ℕ))}
    (h : InternsInOrder hash t jobs (positionOrder jobs) result)
    (hdistinct : DistinctPositions jobs)
    (hfits : Fits t (orderNames jobs (positionOrder jobs))) :
    ByFirstOccurrence hash t jobs result := by
  obtain ⟨t', hresult, hint⟩ := h.1 hfits
  refine ⟨t', ?_, hint⟩
  rw [hresult, hint.names]
  exact congrArg (fun ids => (t', Except.ok ids)) (jobIds_newNames hdistinct t)

/-- Every path that a batch can take interns it by first occurrence.  `intern_partitioned` and what
numbers a whole batch are for batches that `can_partition`; nothing checks that for
`intern_missing`, where `number_sequence` asserts that what is missing fits beside the mark. -/
structure PathsAgree (hash : SymbolName → UInt64) (t : SymbolTable) (jobs : List InternJob) :
    Prop where
  inOrder : ByFirstOccurrence hash t jobs (t.internInOrder hash jobs (positionOrder jobs))
  numbered : canPartition (totalNames jobs) = true → ∀ (chunk : ℕ → ChunkSize) (tasks : ℕ → List ℕ),
    (∀ n, (tasks n).sum = n) →
    ByFirstOccurrence hash t jobs (t.numberJobs hash chunk tasks jobs (positionOrder jobs))
  partitioned : canPartition (totalNames jobs) = true →
    ∀ (chunk : ℕ → ChunkSize) (tasks : ℕ → List ℕ), (∀ n, (tasks n).sum = n) →
    ByFirstOccurrence hash t jobs (t.internPartitioned hash chunk tasks jobs (positionOrder jobs))
  missingSmall : ByFirstOccurrence hash t jobs
    (t.internMissingSmall hash (t.lookUpKnown hash jobs).1 (positionOrder jobs))
  missingAsserted :
    canPartition (missingNames (t.lookUpKnown hash jobs).1 (positionOrder jobs)).length = true
  missingParallel : ∀ (chunk : ℕ → ChunkSize) (tasks : ℕ → List ℕ), (∀ n, (tasks n).sum = n) →
    ByFirstOccurrence hash t jobs
      (t.internMissingParallel hash chunk tasks (t.lookUpKnown hash jobs).1 (positionOrder jobs))
  threePasses : ∀ order : List Request, order.Perm (requests jobs) →
    ByFirstOccurrence hash t jobs (t.internPending hash jobs order)

/-- The names that the table does not hold stand at indices that fit 32 bits, and occur less often
than fits beside the mark. -/
structure NewNamesFit (t : SymbolTable) (jobs : List InternJob) : Prop where
  index : ∀ job ∈ jobs, ∀ (i : ℕ) (n : SymbolName), job.names[i]? = some n → n ∉ t.names →
    i < 2 ^ 32
  count : ((orderNames jobs (positionOrder jobs)).filter fun n => n ∉ t.names).length < PENDING

theorem newNamesFit_of_canPartition (hlt : totalNames jobs < PENDING) : NewNamesFit t jobs := by
  have hpending : PENDING < 2 ^ 32 := by decide
  refine ⟨fun job hjob i n hn _ => ?_, ?_⟩
  · have hi := (List.getElem?_eq_some_iff.mp hn).1
    have hle : job.names.length ≤ totalNames jobs :=
      List.single_le_sum (fun _ _ => Nat.zero_le _) _ (List.mem_map.mpr ⟨job, hjob, rfl⟩)
    omega
  · rw [← length_orderNames (positionOrder_perm jobs)] at hlt
    exact (List.length_filter_le _ _).trans_lt hlt

theorem NewNamesFit.inContentsOrder (h : NewNamesFit t jobs) : InContentsOrder t jobs := by
  intro m n position i k _ hn _ hnk hi hik
  obtain ⟨⟨job, hjob, k', hk', hocc⟩, -⟩ := hnk
  obtain ⟨-, rfl⟩ := Prod.mk.inj (toLex_inj.mp hocc)
  have hlt := h.index job hjob _ n hk' hn
  have hmax : U32_MAX = 2 ^ 32 - 1 := rfl
  omega

/-- **What stays as the lookup left it is not an ID.**  A missing name at an index that does
not fit 32 bits is interned in the place of another one, and its own place keeps the mark. -/
theorem narrowMissing_of_missingSmall (h : Rep hash t) (hdistinct : DistinctPositions jobs)
    (hpath : ByFirstOccurrence hash t jobs
      (t.internMissingSmall hash (t.lookUpKnown hash jobs).1 (positionOrder jobs))) :
    NarrowMissing (t.lookUpKnown hash jobs).1 := by
  rw [narrowMissing_lookUpKnown h]
  intro job hjob i n hn hnew
  by_contra hwide
  obtain ⟨t', hresult, hint⟩ := hpath
  rw [← jobIds_newNames hdistinct, ← hint.names] at hresult
  obtain ⟨j, hj⟩ := List.mem_iff_getElem?.mp hjob
  obtain ⟨written, hwritten, hids⟩ : ∃ written : List ((ℕ × ℕ) × ℕ),
      (∀ p ∈ written.map Prod.fst, p.2 < 2 ^ 32) ∧
      pass1Ids (t.lookUpKnown hash jobs).1 written = jobIds t'.names jobs := by
    rw [internMissingSmall] at hresult
    split at hresult
    · exact absurd (congrArg Prod.snd hresult) (by simp)
    · next t'' ids _ =>
      refine ⟨_, fun p hp => ?_, Except.ok.inj (congrArg Prod.snd hresult)⟩
      obtain ⟨entry, hentry, rfl⟩ := List.mem_map.mp hp
      exact lt_of_mem_missingPlaces (List.of_mem_zip (List.mem_reverse.mp hentry)).1
  have hlooked : (t.lookUpKnown hash jobs).1[j]? = some (t.findAll hash job).1 := by
    rw [lookUpKnown, List.getElem?_map, hj, Option.map_some]
  have hid : (t.findAll hash job).1.ids[i]? = some PENDING := by
    simp only [findAll]
    rw [List.getElem?_map, hn, Option.map_some, findRaw_eq h, idOf_of_notMem hnew, Option.getD_none]
  have hkept := getElem?_pass1Ids_of_notMem hlooked hid fun hmem => hwide (hwritten _ hmem)
  rw [hids, jobIds, List.getElem?_map, hj, Option.map_some, Option.bind_some, List.getElem?_map, hn,
    Option.map_some, Option.some.injEq] at hkept
  have hmem : n ∈ t'.names := by
    rw [hint.names, List.mem_append]
    exact .inr ((mem_fresh _ _).mpr ⟨(mem_orderNames (positionOrder_perm jobs)).mpr
      ⟨job, hjob, List.mem_of_getElem? hn⟩, hnew⟩)
  have hlt := List.idxOf_lt_length_of_mem hmem
  have hle : t'.names.length ≤ PENDING := hint.rep.len_le
  omega

theorem byFirstOccurrence_internPending_iff (h : Rep hash t) (hdistinct : DistinctPositions jobs)
    (hfits : Fits t (orderNames jobs (positionOrder jobs))) {order : List Request}
    (horder : order.Perm (requests jobs)) :
    ByFirstOccurrence hash t jobs (t.internPending hash jobs order) ↔ InContentsOrder t jobs := by
  rw [← internPending_names_iff h hdistinct hfits horder]
  refine exists_congr fun t' => and_congr_left fun hint => ?_
  rw [hint.names, jobIds_newNames hdistinct]

/-- **When the paths agree.** -/
theorem pathsAgree_iff_of_rep (h : Rep hash t) (hdistinct : DistinctPositions jobs)
    (hfits : Fits t (orderNames jobs (positionOrder jobs))) :
    PathsAgree hash t jobs ↔ NewNamesFit t jobs := by
  have hperm := positionOrder_perm jobs
  constructor
  · intro hpaths
    have hnarrow := narrowMissing_of_missingSmall h hdistinct hpaths.missingSmall
    refine ⟨(narrowMissing_lookUpKnown h jobs).mp hnarrow, ?_⟩
    have hasserted := hpaths.missingAsserted
    rw [missingNames_lookUpKnown h hnarrow, canPartition, decide_eq_true_iff] at hasserted
    exact hasserted
  · intro hcond
    have hlt : canPartition (totalNames jobs) = true → totalNames jobs < PENDING := by
      intro hcan
      simpa [canPartition] using hcan
    have hnarrow := (narrowMissing_lookUpKnown h jobs).mpr hcond.index
    have hcount : (missingNames (t.lookUpKnown hash jobs).1 (positionOrder jobs)).length <
        PENDING := by
      rw [missingNames_lookUpKnown h hnarrow]
      exact hcond.count
    refine ⟨?_, fun hcan chunk tasks htasks => ?_, fun hcan chunk tasks htasks => ?_, ?_, ?_,
      fun chunk tasks htasks => ?_, fun order horder => ?_⟩
    · exact InternsInOrder.byFirstOccurrence (internInOrder_spec h jobs hperm) hdistinct hfits
    · exact (numberJobs_spec h hperm (hlt hcan) chunk tasks htasks).byFirstOccurrence
        hdistinct hfits
    · exact (internPartitioned_spec h hperm (hlt hcan) chunk tasks htasks).byFirstOccurrence
        hdistinct hfits
    · exact (lookUpKnown_internMissingSmall_spec h hperm hnarrow).byFirstOccurrence hdistinct hfits
    · rw [canPartition, decide_eq_true_iff]
      exact hcount
    · exact (lookUpKnown_internMissingParallel_spec h hperm hnarrow hcount chunk tasks
        htasks).byFirstOccurrence hdistinct hfits
    · exact (byFirstOccurrence_internPending_iff h hdistinct hfits horder).mpr
        hcond.inContentsOrder

end Paths

end Qld.Symbols
