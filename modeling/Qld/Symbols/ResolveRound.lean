import Qld.Symbols.Resolve

/-!
# One round of the resolution driver

What a round does, for every schedule of its threads.

* `internRound_spec` — the IDs of the new files and of the lazy names are the indices
  of their names;
* `MarkInv`, `insertAndMark_inv` — after any order of the steps, every symbol holds the
  best of what it was offered, and the candidates lie between the symbols referenced for the first
  time and all referenced ones;
* `mem_membersOf`, `membersOf_sorted` — the members to extract.
-/

namespace Qld.Symbols

open Qld.Lib SymbolTable

/-! ### The names of a round -/

section Names

variable {hash : SymbolName → UInt64} {memory : ℕ → UInt8} {files : List ResolveFile}

theorem mem_of_lookup {α β : Type*} [BEq α] [LawfulBEq α] {l : List (α × β)} {a : α} {b : β}
    (h : l.lookup a = some b) : (a, b) ∈ l := by
  obtain ⟨l₁, l₂, rfl, -⟩ := List.lookup_eq_some_iff.mp h
  exact List.mem_append_right _ List.mem_cons_self

theorem zip_zipWith_swap {α β γ : Type*} (f : β → α → γ) (l : List α) :
    ∀ c : List β, l.zip (List.zipWith f c l) = (l.zip c).map fun e => (e.1, f e.2 e.1) := by
  induction l with
  | nil => intro c; simp
  | cons a l ih =>
    intro c
    cases c with
    | nil => simp
    | cons b c => simp [ih]

/-- A candidate has as many names, and is not repeated itself. -/
theorem repeatCandidates_spec (lazy : List ℕ) : ∀ {first : List ((ℕ × ℕ) × ℕ)},
    (∀ e ∈ first, e.1.1 = (fileAt files e.2).lazyNames.length) →
    ∀ i o, (i, some o) ∈ lazy.zip (repeatCandidates files lazy first) →
      (fileAt files o).lazyNames.length = (fileAt files i).lazyNames.length ∧
      (o ∈ first.map Prod.snd ∨ (o, none) ∈ lazy.zip (repeatCandidates files lazy first)) := by
  induction lazy with
  | nil => intro first _ i o hmem; exact absurd hmem List.not_mem_nil
  | cons index lazy ih =>
    intro first hfirst i o hmem
    rw [repeatCandidates] at hmem ⊢
    cases hnames : (fileAt files index).lazyNames with
    | nil =>
      simp only [hnames, List.zip_cons_cons, List.mem_cons] at hmem ⊢
      obtain hmem | hmem := hmem
      · simp at hmem
      · obtain ⟨hlen, ho⟩ := ih hfirst i o hmem
        exact ⟨hlen, ho.imp_right .inr⟩
    | cons head names =>
      simp only [hnames] at hmem ⊢
      cases hlookup : first.lookup (names.length + 1, head.start) with
      | some original =>
        simp only [hlookup, List.zip_cons_cons, List.mem_cons] at hmem ⊢
        obtain hmem | hmem := hmem
        · rw [Prod.mk.injEq] at hmem
          split at hmem
          · obtain ⟨rfl, ho⟩ := hmem
            rw [Option.some.injEq] at ho
            have hin := mem_of_lookup hlookup
            refine ⟨?_, .inl (List.mem_map.mpr ⟨_, hin, ho.symm⟩)⟩
            have hlen := hfirst _ hin
            rw [ho, hnames, List.length_cons, ← hlen]
          · exact absurd hmem.2 (by simp)
        · obtain ⟨hlen, ho⟩ := ih hfirst i o hmem
          exact ⟨hlen, ho.imp_right .inr⟩
      | none =>
        simp only [hlookup, List.zip_cons_cons, List.mem_cons] at hmem ⊢
        obtain hmem | hmem := hmem
        · simp at hmem
        · have hfirst' : ∀ e ∈ ((names.length + 1, head.start), index) :: first,
              e.1.1 = (fileAt files e.2).lazyNames.length := by
            intro e he
            rcases List.mem_cons.mp he with rfl | he
            · rw [hnames, List.length_cons]
            · exact hfirst e he
          obtain ⟨hlen, ho⟩ := ih hfirst' i o hmem
          refine ⟨hlen, ?_⟩
          rcases ho with ho | ho
          · rw [List.map_cons, List.mem_cons] at ho
            rcases ho with rfl | ho
            · exact .inr (.inl rfl)
            · exact .inl ho
          · exact .inr (.inr ho)

theorem length_repeatCandidates (lazy : List ℕ) : ∀ first : List ((ℕ × ℕ) × ℕ),
    (repeatCandidates files lazy first).length = lazy.length := by
  induction lazy with
  | nil => intro first; rfl
  | cons index lazy ih =>
    intro first
    rw [repeatCandidates]
    simp only
    split
    · rw [List.length_cons, List.length_cons, ih]
    · split
      · rw [List.length_cons, List.length_cons, ih]
      · rw [List.length_cons, List.length_cons, ih]

/-- **A repeated file has the names of one that is interned.** -/
theorem repeatedLazyFiles_spec (lazy : List ℕ) {i o : ℕ}
    (hmem : (i, some o) ∈ lazy.zip (repeatedLazyFiles files lazy)) :
    (fileAt files o).lazyNames = (fileAt files i).lazyNames ∧
      (o, none) ∈ lazy.zip (repeatedLazyFiles files lazy) := by
  have hzip : lazy.zip (repeatedLazyFiles files lazy) =
      (lazy.zip (repeatCandidates files lazy [])).map fun e => (e.1, e.2.filter fun original =>
        ((fileAt files original).lazyNames.zip (fileAt files e.1).lazyNames).all fun pair =>
          pair.1 == pair.2) := by
    rw [repeatedLazyFiles, zip_zipWith_swap]
  rw [hzip, List.mem_map] at hmem ⊢
  obtain ⟨⟨j, candidate⟩, hin, heq⟩ := hmem
  rw [Prod.mk.injEq] at heq
  obtain ⟨rfl, hfilter⟩ := heq
  rw [Option.filter_eq_some_iff] at hfilter
  obtain ⟨rfl, hall⟩ := hfilter
  obtain ⟨hlen, ho⟩ := repeatCandidates_spec lazy (by simp) j o hin
  refine ⟨?_, ⟨(o, none), ?_, rfl⟩⟩
  · apply List.ext_getElem hlen
    intro k hk hk'
    have hpair := List.all_eq_true.mp hall
      ((fileAt files o).lazyNames[k], (fileAt files j).lazyNames[k])
      (List.mem_iff_getElem.mpr ⟨k, by simp [hk, hk'], by simp⟩)
    simpa using hpair
  · rcases ho with ho | ho
    · exact absurd ho List.not_mem_nil
    · exact ho

/-- The names that a round mentions. -/
def RoundNames (memory : ℕ → UInt8) (files : List ResolveFile) (load lazy : List ℕ)
    (n : SymbolName) : Prop :=
  (∃ i ∈ load, n ∈ (fileAt files i).symbolNames) ∨
    ∃ i ∈ lazy, n ∈ lazyNamesOf memory (fileAt files i)

/-- The lazy files whose names are interned. -/
def internedFiles (files : List ResolveFile) (lazy : List ℕ) : List ℕ :=
  ((lazy.zip (repeatedLazyFiles files lazy)).filter fun entry => entry.2.isNone).map Prod.fst

theorem mem_internedFiles {lazy : List ℕ} {i : ℕ} :
    i ∈ internedFiles files lazy ↔ (i, none) ∈ lazy.zip (repeatedLazyFiles files lazy) := by
  rw [internedFiles, List.mem_map]
  constructor
  · intro ⟨e, he, hi⟩
    obtain ⟨hmem, hnone⟩ := List.mem_filter.mp he
    rw [Option.isNone_iff_eq_none] at hnone
    rw [← hi, ← hnone]
    exact hmem
  · intro hmem
    exact ⟨(i, none), List.mem_filter.mpr ⟨hmem, rfl⟩, rfl⟩

/-- Every lazy file is interned, or repeats one that is. -/
theorem exists_repeat {lazy : List ℕ} {i : ℕ} (hi : i ∈ lazy) :
    ∃ r, (i, r) ∈ lazy.zip (repeatedLazyFiles files lazy) ∧
      (lazy.zip (repeatedLazyFiles files lazy)).lookup i = some r := by
  have hlen : lazy.length = (repeatedLazyFiles files lazy).length := by
    rw [repeatedLazyFiles, List.length_zipWith, length_repeatCandidates, min_self]
  cases hlookup : (lazy.zip (repeatedLazyFiles files lazy)).lookup i with
  | some r => exact ⟨r, mem_of_lookup hlookup, rfl⟩
  | none =>
    rw [List.lookup_eq_none_iff] at hlookup
    have hmap : (lazy.zip (repeatedLazyFiles files lazy)).map Prod.fst = lazy :=
      List.map_fst_zip hlen.le
    rw [← hmap] at hi
    obtain ⟨e, he, hei⟩ := List.mem_map.mp hi
    have hne := hlookup e he
    rw [hei] at hne
    exact absurd hne (by simp)

/-- The jobs of a round. -/
def roundJobs (memory : ℕ → UInt8) (files : List ResolveFile) (load lazy : List ℕ) :
    List InternJob :=
  load.map (fun i => newJob (fileAt files i).position (fileAt files i).symbolNames) ++
    (internedFiles files lazy).map fun i =>
      newJob (fileAt files i).position (lazyNamesOf memory (fileAt files i))

theorem mem_roundJobs {load lazy : List ℕ} {n : SymbolName} :
    (∃ job ∈ roundJobs memory files load lazy, n ∈ job.names) ↔
      RoundNames memory files load lazy n := by
  constructor
  · intro ⟨job, hjob, hn⟩
    rcases List.mem_append.mp hjob with hjob | hjob
    · obtain ⟨i, hi, rfl⟩ := List.mem_map.mp hjob
      exact .inl ⟨i, hi, hn⟩
    · obtain ⟨i, hi, rfl⟩ := List.mem_map.mp hjob
      exact .inr ⟨i, (List.of_mem_zip (mem_internedFiles.mp hi)).1, hn⟩
  · intro h
    rcases h with ⟨i, hi, hn⟩ | ⟨i, hi, hn⟩
    · exact ⟨_, List.mem_append_left _ (List.mem_map.mpr ⟨i, hi, rfl⟩), hn⟩
    · obtain ⟨r, hr, -⟩ := @exists_repeat files _ _ hi
      cases r with
      | none =>
        exact ⟨_, List.mem_append_right _ (List.mem_map.mpr ⟨i, mem_internedFiles.mpr hr, rfl⟩), hn⟩
      | some o =>
        obtain ⟨hnames, ho⟩ := repeatedLazyFiles_spec lazy hr
        refine ⟨_, List.mem_append_right _ (List.mem_map.mpr ⟨o, mem_internedFiles.mpr ho, rfl⟩), ?_⟩
        rw [lazyNamesOf, ← hnames] at hn
        exact hn

theorem zip_lookup_map {β : Type*} (f : ℕ → β) {l : List ℕ} {i : ℕ} (hi : i ∈ l) :
    (l.zip (l.map f)).lookup i = some (f i) := by
  rw [← List.map_prod_left_eq_zip, lookup_graph, if_pos hi]

/-- What interning a round leaves. -/
structure RoundInterned (hash : SymbolName → UInt64) (memory : ℕ → UInt8)
    (files : List ResolveFile) (load lazy : List ℕ) (t t' : SymbolTable) (news : List SymbolName)
    (symbolIds lazyIds : ℕ → List ℕ) : Prop where
  interned : Interned hash t news t'
  names : ∀ n, n ∈ t'.names ↔ n ∈ t.names ∨ RoundNames memory files load lazy n
  symbolIds : ∀ i ∈ load, symbolIds i = (fileAt files i).symbolNames.map t'.names.idxOf
  lazyIds : ∀ i ∈ lazy, lazyIds i = (lazyNamesOf memory (fileAt files i)).map t'.names.idxOf

/-- **Interning the names of a round.** -/
theorem internRound_spec {t : SymbolTable} (h : Rep hash t) (sched : Schedule)
    (load lazy : List ℕ) :
    (∃ t' news symbolIds lazyIds,
      internRound hash memory sched t files load lazy = (t', .ok (symbolIds, lazyIds)) ∧
        RoundInterned hash memory files load lazy t t' news symbolIds lazyIds) ∨
    (internRound hash memory sched t files load lazy = (t, .error (overflow t.limit)) ∧
      t.limit - t.names.length <
        {n | n ∉ t.names ∧ RoundNames memory files load lazy n}.ncard) := by
  obtain ⟨hfit, hfull⟩ := tryInternBatch_spec h sched (roundJobs memory files load lazy)
  have hmem : ∀ n, n ∈ orderNames (roundJobs memory files load lazy)
      (positionOrder (roundJobs memory files load lazy)) ↔
      RoundNames memory files load lazy n := by
    intro n
    rw [mem_orderNames (positionOrder_perm _), mem_roundJobs]
  have herror : ∀ {t' e}, t.tryInternBatch hash sched (roundJobs memory files load lazy) =
      (t', .error e) →
        internRound hash memory sched t files load lazy = (t', .error e) := by
    intro t' e hresult
    simp only [roundJobs, internedFiles] at hresult
    simp only [internRound, hresult]
  have hjobs : ∀ {t' ids}, t.tryInternBatch hash sched (roundJobs memory files load lazy) =
      (t', .ok ids) → internRound hash memory sched t files load lazy =
        (t', .ok (fun i => ((load.zip (ids.take load.length)).lookup i).getD [],
          fun i => (((internedFiles files lazy).zip (ids.drop load.length)).lookup
            (((lazy.zip (repeatedLazyFiles files lazy)).lookup i).join.getD i)).getD [])) := by
    intro t' ids hresult
    simp only [roundJobs, internedFiles] at hresult
    simp only [internRound, hresult]
    refine congrArg (fun ids => (t', Except.ok (_, ids))) (funext fun i => ?_)
    cases ((lazy.zip (repeatedLazyFiles files lazy)).lookup i).join <;> rfl
  by_cases hfits : Fits t (orderNames (roundJobs memory files load lazy)
      (positionOrder (roundJobs memory files load lazy)))
  · left
    obtain ⟨t', news, hresult, hint, hnews⟩ := hfit hfits
    have hids : jobIds t'.names (roundJobs memory files load lazy) =
        load.map (fun i => (fileAt files i).symbolNames.map t'.names.idxOf) ++
          (internedFiles files lazy).map fun i =>
            (lazyNamesOf memory (fileAt files i)).map t'.names.idxOf := by
      rw [jobIds, roundJobs, List.map_append, List.map_map, List.map_map]
      rfl
    have htake : (jobIds t'.names (roundJobs memory files load lazy)).take load.length =
        load.map (fun i => (fileAt files i).symbolNames.map t'.names.idxOf) := by
      rw [hids, List.take_left' (List.length_map _)]
    have hdrop : (jobIds t'.names (roundJobs memory files load lazy)).drop load.length =
        (internedFiles files lazy).map fun i =>
          (lazyNamesOf memory (fileAt files i)).map t'.names.idxOf := by
      rw [hids, List.drop_left' (List.length_map _)]
    refine ⟨t', news, _, _, hjobs hresult, hint, fun n => ?_, fun i hi => ?_, fun i hi => ?_⟩
    · rw [hint.names, List.mem_append, hnews.mem_iff, mem_fresh, hmem]
      tauto
    · simp only [htake, zip_lookup_map _ hi, Option.getD_some]
    · obtain ⟨r, hr, hlookup⟩ := @exists_repeat files _ _ hi
      simp only [hlookup, hdrop, Option.join_some]
      cases r with
      | none =>
        simp only [Option.getD_none, zip_lookup_map _ (mem_internedFiles.mpr hr), Option.getD_some]
      | some o =>
        obtain ⟨hnames, ho⟩ := repeatedLazyFiles_spec lazy hr
        simp only [Option.getD_some, zip_lookup_map _ (mem_internedFiles.mpr ho)]
        rw [lazyNamesOf, hnames]
        rfl
  · right
    refine ⟨herror (hfull hfits), ?_⟩
    have hcard := ncard_fresh t (orderNames (roundJobs memory files load lazy)
      (positionOrder (roundJobs memory files load lazy)))
    simp only [hmem] at hcard
    rw [hcard]
    exact Nat.lt_of_not_le hfits

end Names

/-! ### Offers and marks -/

section Marks

variable {resolver : Resolver} {t : SymbolTable}

@[simp] theorem setFlags_definition (t : SymbolTable) (id flags other : ℕ) :
    (t.setFlags id flags).1.definition other = t.definition other := rfl

@[simp] theorem insertDefinition_flagsOf (resolver : Resolver) (t : SymbolTable) (id other : ℕ)
    (c : Definition) : (t.insertDefinition resolver id c).1.flagsOf other = t.flagsOf other := by
  unfold insertDefinition
  split <;> rfl

@[simp] theorem insertDefinition_flags (resolver : Resolver) (t : SymbolTable) (id : ℕ)
    (c : Definition) : (t.insertDefinition resolver id c).1.flags = t.flags := by
  unfold insertDefinition
  split <;> rfl

@[simp] theorem insertDefinition_names (resolver : Resolver) (t : SymbolTable) (id : ℕ)
    (c : Definition) : (t.insertDefinition resolver id c).1.names = t.names := by
  unfold insertDefinition
  split <;> rfl

@[simp] theorem insertDefinition_shards (resolver : Resolver) (t : SymbolTable) (id : ℕ)
    (c : Definition) : (t.insertDefinition resolver id c).1.shards = t.shards := by
  unfold insertDefinition
  split <;> rfl

@[simp] theorem insertDefinition_limit (resolver : Resolver) (t : SymbolTable) (id : ℕ)
    (c : Definition) : (t.insertDefinition resolver id c).1.limit = t.limit := by
  unfold insertDefinition
  split <;> rfl

theorem setFlags_flagsOf (t : SymbolTable) {id : ℕ} (flags other : ℕ) (hid : id < t.flags.length) :
    (t.setFlags id flags).1.flagsOf other =
      if other = id then t.flagsOf id ||| flags else t.flagsOf other := by
  show (t.flags.set id (t.flagsOf id ||| flags)).getD other 0 = _
  rw [List.getD_eq_getElem?_getD, List.getElem?_set]
  by_cases h : other = id
  · subst h
    simp [hid]
  · rw [if_neg (Ne.symm h), if_neg h]
    rfl

/-- Whether a live file references a symbol. -/
def isReferenced (t : SymbolTable) (id : ℕ) : Bool := containsFlags (t.flagsOf id) REFERENCED

theorem containsFlags_or_referenced (flags : ℕ) :
    containsFlags (flags ||| REFERENCED) REFERENCED = true := by
  simp [containsFlags, REFERENCED]

theorem containsFlags_or_weak (flags : ℕ) :
    containsFlags (flags ||| WEAK_REFERENCED) REFERENCED = containsFlags flags REFERENCED := by
  have hzero : WEAK_REFERENCED &&& REFERENCED = 0 := by decide
  rw [containsFlags, containsFlags, Nat.and_or_distrib_right, hzero, Nat.or_zero]

/-- Whether a step marks a reference with one of the two flags, to a symbol of the table, or
concerns one. -/
def MarkStep.Valid (size : ℕ) : MarkStep → Prop
  | .insert e _ => e.id < size
  | .check e _ => e.id < size
  | .mark id flags => id < size ∧ (flags = REFERENCED ∨ flags = WEAK_REFERENCED)

/-- The candidates that steps offer to a symbol. -/
def offersTo (id : ℕ) (steps : List MarkStep) : Set Definition :=
  {c | c.isDefined = true ∧ ∃ e, MarkStep.insert e c ∈ steps ∧ e.id = id}

/-- A table with the names of another. -/
structure SameShape (t t' : SymbolTable) : Prop where
  names : t'.names = t.names
  shards : t'.shards = t.shards
  limit : t'.limit = t.limit
  flags_length : t'.flags.length = t.flags.length
  defs_length : t'.defs.length = t.defs.length

theorem insertAndMark_shape (t : SymbolTable) (steps : List MarkStep) :
    SameShape t (insertAndMark resolver t steps).table := by
  induction steps using List.reverseRecOn with
  | nil => exact ⟨rfl, rfl, rfl, rfl, rfl⟩
  | append_singleton steps step ih =>
    rw [insertAndMark, List.foldl_append]
    show SameShape t (markStep resolver (insertAndMark resolver t steps) step).table
    generalize insertAndMark resolver t steps = s at ih ⊢
    cases step with
    | insert e c =>
      simp only [markStep]
      refine ⟨?_, ?_, ?_, ?_, ?_⟩
      · rw [insertDefinition_names, ih.names]
      · rw [insertDefinition_shards, ih.shards]
      · rw [insertDefinition_limit, ih.limit]
      · rw [insertDefinition_flags, ih.flags_length]
      · rw [insertDefinition_defs_length, ih.defs_length]
    | check e c =>
      rw [markStep]
      split
      · exact ih
      · exact ih
    | mark id flags =>
      have hset : SameShape t (s.table.setFlags id flags).1 := by
        refine ⟨ih.names, ih.shards, ih.limit, ?_, ih.defs_length⟩
        rw [← ih.flags_length]
        exact List.length_set
      rw [markStep]
      split
      · exact hset
      · exact hset

/-- The state after the steps `done`, from a table whose symbols hold the best of `before`. -/
structure MarkInv (resolver : Resolver) (t : SymbolTable) (before : ℕ → Set Definition)
    (done : List MarkStep) (s : MarkState) : Prop extends SameShape t s.table where
  best : ∀ id < t.defs.length,
    HoldsBest (fun a b => takesPrecedence resolver a b = true) (before id ∪ offersTo id done)
      (cellOf (s.table.definition id))
  referenced : ∀ id < t.flags.length, isReferenced s.table id = true ↔
    isReferenced t id = true ∨ MarkStep.mark id REFERENCED ∈ done
  /-- A symbol that is referenced for the first time is a candidate. -/
  complete : ∀ id < t.flags.length, isReferenced t id = false →
    MarkStep.mark id REFERENCED ∈ done → id ∈ s.candidates
  sound : ∀ id ∈ s.candidates, id < t.flags.length ∧ isReferenced s.table id = true

theorem offersTo_snoc_of_not_insert {id : ℕ} (done : List MarkStep) {step : MarkStep}
    (hstep : ∀ e c, step ≠ .insert e c) : offersTo id (done ++ [step]) = offersTo id done := by
  ext c
  constructor
  · intro ⟨hc, e, he, hid⟩
    rcases List.mem_append.mp he with he | he
    · exact ⟨hc, e, he, hid⟩
    · exact absurd (List.mem_singleton.mp he).symm (hstep e c)
  · intro ⟨hc, e, he, hid⟩
    exact ⟨hc, e, List.mem_append_left _ he, hid⟩

theorem offersTo_snoc_insert (id : ℕ) (done : List MarkStep) (e : Entry) (c : Definition) :
    offersTo id (done ++ [.insert e c]) =
      if e.id = id ∧ c.isDefined = true then insert c (offersTo id done) else offersTo id done := by
  ext d
  rw [offersTo, Set.mem_ofPred_eq]
  constructor
  · intro ⟨hd, e', he', hid⟩
    rcases List.mem_append.mp he' with he' | he'
    · split
      · exact Set.mem_insert_of_mem _ ⟨hd, e', he', hid⟩
      · exact ⟨hd, e', he', hid⟩
    · rw [List.mem_singleton, MarkStep.insert.injEq] at he'
      obtain ⟨rfl, rfl⟩ := he'
      rw [if_pos ⟨hid, hd⟩]
      exact Set.mem_insert _ _
  · intro hmem
    have hold : d ∈ offersTo id done → d.isDefined = true ∧
        ∃ e', MarkStep.insert e' d ∈ done ++ [.insert e c] ∧ e'.id = id := by
      intro ⟨hd, e', he', hid⟩
      exact ⟨hd, e', List.mem_append_left _ he', hid⟩
    split at hmem
    · next hc =>
      rcases hmem with rfl | hmem
      · exact ⟨hc.2, e, List.mem_append_right _ (List.mem_singleton_self _), hc.1⟩
      · exact hold hmem
    · exact hold hmem

/-- A step that marks nothing new leaves the marks. -/
theorem mem_snoc_mark {id : ℕ} {done : List MarkStep} {step : MarkStep}
    (hstep : step ≠ .mark id REFERENCED) :
    MarkStep.mark id REFERENCED ∈ done ++ [step] ↔ MarkStep.mark id REFERENCED ∈ done := by
  rw [List.mem_append, List.mem_singleton]
  exact ⟨fun h => h.resolve_right fun heq => hstep heq.symm, .inl⟩

namespace MarkInv

variable {before : ℕ → Set Definition} {done : List MarkStep} {s : MarkState}

theorem insert (h : MarkInv resolver t before done s) {e : Entry} {c : Definition}
    (htotal : ∀ id, StrictTotalOn (fun a b => takesPrecedence resolver a b = true)
      (before id ∪ offersTo id (done ++ [.insert e c]))) :
    MarkInv resolver t before (done ++ [.insert e c]) (markStep resolver s (.insert e c)) := by
  have hmark : ∀ id, MarkStep.insert e c ≠ .mark id REFERENCED := fun id => by simp
  refine ⟨⟨?_, ?_, ?_, ?_, ?_⟩, fun id hlt => ?_, fun id hlt => ?_, fun id hlt hnew => ?_,
    fun id hmem => ?_⟩
  · simp only [markStep, insertDefinition_names, h.names]
  · simp only [markStep, insertDefinition_shards, h.shards]
  · simp only [markStep, insertDefinition_limit, h.limit]
  · simp only [markStep, insertDefinition_flags, h.flags_length]
  · simp only [markStep, insertDefinition_defs_length, h.defs_length]
  · have hbest := h.best id hlt
    have htotal := htotal id
    rw [offersTo_snoc_insert] at htotal ⊢
    simp only [markStep]
    by_cases heq : e.id = id
    · subst heq
      by_cases hc : c.isDefined = true
      · rw [if_pos ⟨rfl, hc⟩, Set.union_insert] at htotal ⊢
        rw [cellOf_insertDefinition resolver s.table (by rwa [h.defs_length]) hc]
        exact offer_holdsBest htotal hbest
      · rw [if_neg fun hand => hc hand.2]
        rw [insertDefinition, takesPrecedence_undefined_left resolver _ (by simpa using hc)]
        exact hbest
    · rw [if_neg fun hand => heq hand.1, insertDefinition_other resolver s.table heq]
      exact hbest
  · simp only [markStep, isReferenced, insertDefinition_flagsOf, mem_snoc_mark (hmark id)]
    exact h.referenced id hlt
  · rw [mem_snoc_mark (hmark id)]
    exact h.complete id hlt hnew
  · simp only [markStep, isReferenced, insertDefinition_flagsOf]
    exact h.sound id hmem

theorem check (h : MarkInv resolver t before done s) {e : Entry} (c : Definition)
    (hid : e.id < t.flags.length) :
    MarkInv resolver t before (done ++ [.check e c]) (markStep resolver s (.check e c)) := by
  have hmark : ∀ id, MarkStep.check e c ≠ .mark id REFERENCED := fun id => by simp
  have hoffers : ∀ id, offersTo id (done ++ [.check e c]) = offersTo id done := fun id =>
    offersTo_snoc_of_not_insert done fun e' c' => by simp
  have hsame : ∀ candidates, (∀ id, id ∈ s.candidates → id ∈ candidates) →
      (∀ id ∈ candidates, id < t.flags.length ∧ isReferenced s.table id = true) →
      MarkInv resolver t before (done ++ [.check e c]) { s with candidates := candidates } := by
    intro candidates hsub hsound
    refine ⟨h.toSameShape, fun id hlt => ?_, fun id hlt => ?_, fun id hlt hnew => ?_, hsound⟩
    · rw [hoffers]
      exact h.best id hlt
    · rw [mem_snoc_mark (hmark id)]
      exact h.referenced id hlt
    · rw [mem_snoc_mark (hmark id)]
      intro hmem
      exact hsub id (h.complete id hlt hnew hmem)
  rw [markStep]
  split
  · next hcond =>
    refine hsame (e.id :: s.candidates) (fun id => List.mem_cons_of_mem _) fun id hmem => ?_
    rcases List.mem_cons.mp hmem with rfl | hmem
    · exact ⟨hid, hcond.2.2⟩
    · exact h.sound id hmem
  · exact hsame s.candidates (fun id hmem => hmem) h.sound

theorem mark (h : MarkInv resolver t before done s) {id flags : ℕ} (hid : id < t.flags.length)
    (hflags : flags = REFERENCED ∨ flags = WEAK_REFERENCED) :
    MarkInv resolver t before (done ++ [.mark id flags]) (markStep resolver s (.mark id flags)) := by
  have hoffers : ∀ other, offersTo other (done ++ [.mark id flags]) = offersTo other done :=
    fun other => offersTo_snoc_of_not_insert done fun e' c' => by simp
  have hlt' : id < s.table.flags.length := by rwa [h.flags_length]
  have href : ∀ other < t.flags.length,
      isReferenced (s.table.setFlags id flags).1 other = true ↔
        isReferenced t other = true ∨ MarkStep.mark other REFERENCED ∈ done ++ [.mark id flags] := by
    intro other hother
    have hold := h.referenced other hother
    rw [isReferenced, setFlags_flagsOf s.table flags other hlt']
    rw [List.mem_append, List.mem_singleton, MarkStep.mark.injEq, ← or_assoc, ← hold]
    by_cases hne : other = id
    · subst hne
      rw [if_pos rfl]
      rcases hflags with rfl | rfl
      · simp [containsFlags_or_referenced]
      · rw [containsFlags_or_weak]
        have : REFERENCED ≠ WEAK_REFERENCED := by decide
        simp [isReferenced, this]
    · rw [if_neg hne]
      simp [isReferenced, hne]
  have hmono : ∀ other < t.flags.length, isReferenced s.table other = true →
      isReferenced (s.table.setFlags id flags).1 other = true := by
    intro other hother hold
    rw [href other hother]
    exact ((h.referenced other hother).mp hold).imp_right (List.mem_append_left _)
  have hsame : ∀ candidates, (∀ other, other ∈ s.candidates → other ∈ candidates) →
      (flags = REFERENCED → isReferenced s.table id = false → id ∈ candidates) →
      (∀ other ∈ candidates, other ∈ s.candidates ∨ other = id ∧ flags = REFERENCED) →
      MarkInv resolver t before (done ++ [.mark id flags])
        { s with table := (s.table.setFlags id flags).1, candidates := candidates } := by
    intro candidates hsub hnewid hcases
    refine ⟨⟨h.names, h.shards, h.limit, ?_, h.defs_length⟩, fun other hlt => ?_, href,
      fun other hlt hnew => ?_, fun other hmem => ?_⟩
    · show (s.table.flags.set _ _).length = _
      rw [List.length_set, h.flags_length]
    · rw [hoffers, setFlags_definition]
      exact h.best other hlt
    · intro hmem
      rw [List.mem_append, List.mem_singleton, MarkStep.mark.injEq] at hmem
      rcases hmem with hmem | ⟨rfl, hflag⟩
      · exact hsub other (h.complete other hlt hnew hmem)
      · by_cases hold : isReferenced s.table other = true
        · exact hsub other (h.complete other hlt hnew
            (((h.referenced other hlt).mp hold).resolve_left (by simp [hnew])))
        · exact hnewid hflag.symm (by simpa using hold)
    · rcases hcases other hmem with hmem | ⟨rfl, hflag⟩
      · obtain ⟨hlt, hold⟩ := h.sound other hmem
        exact ⟨hlt, hmono other hlt hold⟩
      · refine ⟨hid, (href other hid).mpr (.inr ?_)⟩
        rw [hflag]
        exact List.mem_append_right _ (List.mem_singleton_self _)
  rw [markStep]
  split
  · next hcond =>
    exact hsame (id :: s.candidates) (fun other => List.mem_cons_of_mem _)
      (fun _ _ => List.mem_cons_self) fun other hmem =>
        (List.mem_cons.mp hmem).symm.imp_right fun heq => ⟨heq, hcond.1⟩
  · next hcond =>
    refine hsame s.candidates (fun other hmem => hmem) (fun hflag hold => ?_)
      fun other hmem => .inl hmem
    exact absurd ⟨hflag, hold⟩ hcond

end MarkInv

/-- **Any order of the steps.** -/
theorem insertAndMark_inv {before : ℕ → Set Definition} (steps : List MarkStep)
    (hlen : t.flags.length = t.defs.length) (hvalid : ∀ step ∈ steps, step.Valid t.defs.length)
    (htotal : ∀ id, StrictTotalOn (fun a b => takesPrecedence resolver a b = true)
      (before id ∪ offersTo id steps))
    (hbefore : ∀ id < t.defs.length,
      HoldsBest (fun a b => takesPrecedence resolver a b = true) (before id)
        (cellOf (t.definition id))) :
    MarkInv resolver t before steps (insertAndMark resolver t steps) := by
  induction steps using List.reverseRecOn with
  | nil =>
    refine ⟨⟨rfl, rfl, rfl, rfl, rfl⟩, fun id hlt => ?_, fun id hlt => ?_,
      fun id hlt _ hmem => ?_, fun id hmem => ?_⟩
    · have hnone : offersTo id [] = ∅ := by
        ext c
        simp [offersTo]
      rw [hnone, Set.union_empty]
      exact hbefore id hlt
    · simp [insertAndMark]
    · exact absurd hmem List.not_mem_nil
    · exact absurd hmem List.not_mem_nil
  | append_singleton steps step ih =>
    have hsub : ∀ id, offersTo id steps ⊆ offersTo id (steps ++ [step]) := by
      intro id c ⟨hc, e, he, hid⟩
      exact ⟨hc, e, List.mem_append_left _ he, hid⟩
    have hprev := ih (fun s hs => hvalid s (List.mem_append_left _ hs)) fun id =>
      (htotal id).mono (Set.union_subset_union_right _ (hsub id))
    have hstep := hvalid step (List.mem_append_right _ (List.mem_singleton_self _))
    rw [insertAndMark, List.foldl_append]
    show MarkInv resolver t before (steps ++ [step])
      (markStep resolver (insertAndMark resolver t steps) step)
    cases step with
    | insert e c => exact hprev.insert htotal
    | check e c => exact hprev.check c (by rw [hlen]; exact hstep)
    | mark id flags => exact hprev.mark (by rw [hlen]; exact hstep.1) hstep.2

end Marks

/-! ### The members to extract -/

section Members

variable {resolver : Resolver} {t : SymbolTable} {count : ℕ} {live : ℕ → Bool}

theorem chooseMember_eq_some {id m : ℕ} :
    chooseMember resolver t count live id = some m ↔
      (t.definition id).isDefined = true ∧ resolver.extracts (t.definition id) = true ∧
        m = (t.definition id).file ∧ m < count ∧ live m = false := by
  rw [chooseMember]
  split
  · next hcond =>
    rw [Bool.or_eq_true, Bool.not_eq_true', Bool.not_eq_true'] at hcond
    constructor
    · intro h
      exact absurd h (by simp)
    · intro ⟨hd, he, _⟩
      rcases hcond with hcond | hcond
      · exact absurd (hd.symm.trans hcond) (by simp)
      · exact absurd (he.symm.trans hcond) (by simp)
  · next hcond =>
    rw [Bool.or_eq_true, Bool.not_eq_true', Bool.not_eq_true', not_or, Bool.not_eq_false,
      Bool.not_eq_false] at hcond
    split
    · next hlive =>
      rw [Bool.and_eq_true, decide_eq_true_eq, Bool.not_eq_true'] at hlive
      rw [Option.some.injEq]
      constructor
      · intro h
        rw [← h]
        exact ⟨hcond.1, hcond.2, rfl, hlive⟩
      · intro ⟨_, _, hm, _⟩
        exact hm.symm
    · next hlive =>
      rw [Bool.and_eq_true, decide_eq_true_eq, Bool.not_eq_true'] at hlive
      constructor
      · intro h
        exact absurd h (by simp)
      · intro ⟨_, _, hm, hlt, hl⟩
        exact absurd ⟨hm ▸ hlt, hm ▸ hl⟩ hlive

/-- **The members that are extracted.** -/
theorem mem_membersOf {candidates : List ℕ} {m : ℕ} :
    m ∈ membersOf resolver t count live candidates ↔
      ∃ id ∈ candidates, (t.definition id).isDefined = true ∧
        resolver.extracts (t.definition id) = true ∧ m = (t.definition id).file ∧ m < count ∧
        live m = false := by
  rw [membersOf, mem_dedupAdjacent, (List.perm_insertionSort _ _).mem_iff, List.mem_filterMap]
  constructor
  · intro ⟨id, hid, hm⟩
    exact ⟨id, hid, chooseMember_eq_some.mp hm⟩
  · intro ⟨id, hid, hm⟩
    exact ⟨id, hid, chooseMember_eq_some.mpr hm⟩

theorem membersOf_sorted (candidates : List ℕ) :
    (membersOf resolver t count live candidates).Pairwise (· < ·) :=
  dedupAdjacent_sorted (List.pairwise_insertionSort _ _)

end Members

end Qld.Symbols
