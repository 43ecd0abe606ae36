import Mathlib.Data.List.Perm.Subperm
import Mathlib.Data.List.Nodup
import Mathlib.Data.List.Range
import Qld.Coff.Edata

/-!
# The exports and their ordinals

* `sorted_entries` — the exports are strictly sorted by name;
* `nodup_usedOrdinals` — ordinals that are distinct when asked for stay so;
* `nextFree_eq` — the search for a free ordinal ends at the next one;
* `assignOrdinals_eq` — with room for all, the exports without an ordinal get the lowest
  free ones, in order.
-/

namespace Qld.Coff.Edata

open Qld.Lib

/-! ### Sorted names -/

theorem nameLe_trans (a b c : Export) (hab : nameLe a b = true) (hbc : nameLe b c = true) :
    nameLe a c = true := Std.TransCmp.isLE_trans hab hbc

theorem nameLe_total (a b : Export) : (nameLe a b || nameLe b a) = true := by
  rw [Bool.or_eq_true, nameLe, nameLe]
  rcases h : compare a.name b.name with _ | _ | _
  · exact .inl rfl
  · exact .inl rfl
  · exact .inr (by rw [Std.OrientedCmp.lt_of_gt h]; rfl)

theorem dedupName_sublist (l : List Export) : (dedupName l).Sublist l := by
  fun_induction dedupName l with
  | case1 => exact .slnil
  | case2 e => exact .refl _
  | case3 e f rest h ih => exact ih.trans (.cons_cons e (.cons f (.refl _)))
  | case4 e f rest h ih => exact .cons_cons e ih

variable {l : List Export}

/-- The first of a run stays, so what comes after it is not above it. -/
theorem sorted_dedupName (h : l.Pairwise fun a b => nameLe a b = true) :
    (dedupName l).Pairwise fun a b => compare a.name b.name = .lt := by
  fun_induction dedupName l with
  | case1 => exact .nil
  | case2 e => exact List.pairwise_singleton _ _
  | case3 e f rest heq ih =>
    obtain ⟨he, hrest⟩ := List.pairwise_cons.mp h
    exact ih (List.pairwise_cons.mpr ⟨fun a ha => he a (List.mem_cons_of_mem _ ha),
      (List.pairwise_cons.mp hrest).2⟩)
  | case4 e f rest hne ih =>
    obtain ⟨he, hrest⟩ := List.pairwise_cons.mp h
    refine List.pairwise_cons.mpr ⟨fun a ha => ?_, ih hrest⟩
    have hlt : compare e.name f.name = .lt := by
      have hle := he f List.mem_cons_self
      rw [nameLe] at hle
      rcases hc : compare e.name f.name with _ | _ | _
      · rfl
      · exact absurd (Std.LawfulEqOrd.eq_of_compare hc).symm hne
      · rw [hc] at hle
        exact nomatch hle
    have ha' := (dedupName_sublist _).subset ha
    rcases List.mem_cons.mp ha' with rfl | ha'
    · exact hlt
    · exact Std.TransCmp.lt_of_lt_of_isLE hlt ((List.pairwise_cons.mp hrest).1 a ha')

/-- **The exports are strictly sorted by name.** -/
theorem sorted_entries (requests : List Request) (symbols : List Symbol) (pe : Options) :
    (entries requests symbols pe).Pairwise fun a b => compare a.name b.name = .lt :=
  sorted_dedupName (List.pairwise_mergeSort nameLe_trans nameLe_total _)

/-! ### Ordinals that are asked for -/

theorem usedOrdinals_append (l l' : List Export) :
    usedOrdinals (l ++ l') = usedOrdinals l ++ usedOrdinals l' := by
  rw [usedOrdinals, List.filter_append, List.map_append]
  rfl

theorem usedOrdinals_eq_nil (h : ∀ e ∈ l, e.ordinal = 0) : usedOrdinals l = [] := by
  rw [usedOrdinals, List.filter_eq_nil_iff.mpr fun e he => by simp [h e he], List.map_nil]

/-- The ordinal a request asks for. -/
def requestedOrdinal (request : Request) : Option ℕ :=
  if request.privateExport then none
  else if (request.ordinal.getD 0).toNat = 0 then none else some (request.ordinal.getD 0).toNat

theorem resolve_spec (symbols : List Symbol) (pe : Options) (state : Collected) (wanted : Name) :
    (resolve symbols pe state wanted).2.entries = state.entries ∧
      ∃ warnings : List (Name × Name × Bool), (resolve symbols pe state wanted).2.diagnostics =
        state.diagnostics ++ warnings.map fun w => .warning w.1 w.2.1 w.2.2 := by
  rw [resolve]
  split
  · exact ⟨rfl, [], (List.append_nil _).symm⟩
  · split
    · exact ⟨rfl, [], (List.append_nil _).symm⟩
    · next twin _ =>
      split
      · exact ⟨rfl, [(wanted, twin, !state.warned)], rfl⟩
      · exact ⟨rfl, [], (List.append_nil _).symm⟩

/-- What a request adds: an alias without an ordinal, and the export. -/
theorem collectRequest_spec (symbols : List Symbol) (pe : Options) (state : Collected)
    {request : Request} (h : request.privateExport = false) :
    (∃ second entry, (collectRequest symbols pe state request).entries =
        state.entries ++ second ++ [entry] ∧ (∀ e ∈ second, e.ordinal = 0) ∧
        entry.ordinal = (request.ordinal.getD 0).toNat) ∧
      ∃ warnings : List (Name × Name × Bool), (collectRequest symbols pe state request).diagnostics =
        state.diagnostics ++ warnings.map fun w => .warning w.1 w.2.1 w.2.2 := by
  have hsecond : ∀ (o : Option Name) (f : Name → Export), (∀ short, (f short).ordinal = 0) →
      ∀ e ∈ o.toList.map f, e.ordinal = 0 := by
    intro o f hf e he
    obtain ⟨short, -, rfl⟩ := List.mem_map.mp he
    exact hf short
  rw [collectRequest, h, if_neg Bool.false_ne_true]
  cases hforwarder : request.forwarder with
  | some forwarder =>
    refine ⟨⟨_, _, rfl, hsecond _ _ fun _ => rfl, ?_⟩, [], (List.append_nil _).symm⟩
    rfl
  | none =>
    obtain ⟨hentries, warnings, hwarnings⟩ :=
      resolve_spec symbols pe state (decorate pe request.symbol)
    simp only at hentries hwarnings ⊢
    generalize resolve symbols pe state (decorate pe request.symbol) = r at hentries hwarnings ⊢
    rw [← hentries]
    refine ⟨⟨_, _, rfl, hsecond _ _ fun _ => rfl, ?_⟩, warnings, hwarnings⟩
    rfl

theorem usedOrdinals_collectRequest (symbols : List Symbol) (pe : Options) (state : Collected)
    (request : Request) : usedOrdinals (collectRequest symbols pe state request).entries =
      usedOrdinals state.entries ++ (requestedOrdinal request).toList := by
  cases hprivate : request.privateExport with
  | true =>
    rw [collectRequest, requestedOrdinal, hprivate, if_pos rfl, if_pos rfl]
    exact (List.append_nil _).symm
  | false =>
    obtain ⟨⟨second, entry, hentries, hsecond, hordinal⟩, -⟩ :=
      collectRequest_spec symbols pe state hprivate
    rw [hentries, usedOrdinals_append, usedOrdinals_append, usedOrdinals_eq_nil hsecond,
      List.append_nil, requestedOrdinal, hprivate, if_neg Bool.false_ne_true, ← hordinal]
    congr 1
    by_cases hzero : entry.ordinal = 0
    · rw [if_pos hzero, usedOrdinals, List.filter_cons_of_neg (by simp [hzero])]
      rfl
    · rw [if_neg hzero, usedOrdinals, List.filter_cons_of_pos (by simp [hzero])]
      rfl

theorem usedOrdinals_collectRequests (symbols : List Symbol) (pe : Options) (requests : List Request)
    (state : Collected) :
    usedOrdinals (requests.foldl (collectRequest symbols pe) state).entries =
      usedOrdinals state.entries ++ requests.filterMap requestedOrdinal := by
  induction requests generalizing state with
  | nil => exact (List.append_nil _).symm
  | cons request requests ih =>
    rw [List.foldl_cons, ih, usedOrdinals_collectRequest, List.append_assoc]
    cases h : requestedOrdinal request with
    | none => rw [List.filterMap_cons_none h]; rfl
    | some ordinal => rw [List.filterMap_cons_some h]; rfl

theorem usedOrdinals_collectAll (symbols : List Symbol) (pe : Options) (l : List Symbol)
    (acc : List Export) :
    usedOrdinals (l.foldl (collectSymbol symbols pe) acc) = usedOrdinals acc := by
  induction l generalizing acc with
  | nil => rfl
  | cons symbol l ih =>
    rw [List.foldl_cons, ih, collectSymbol]
    split
    · rfl
    · simp only
      split
      · rfl
      · rw [usedOrdinals_append, usedOrdinals_append]
        refine (List.append_assoc _ _ _).trans ((congrArg (usedOrdinals acc ++ ·) ?_).trans
          (List.append_nil _))
        rw [← usedOrdinals_append]
        refine usedOrdinals_eq_nil fun e he => ?_
        rcases List.mem_append.mp he with he | he
        · obtain ⟨short, -, rfl⟩ := List.mem_map.mp he
          rfl
        · rw [List.mem_singleton.mp he]

theorem usedOrdinals_collect (requests : List Request) (symbols : List Symbol) (pe : Options) :
    usedOrdinals (collect requests symbols pe).entries = requests.filterMap requestedOrdinal := by
  have hrequests := usedOrdinals_collectRequests symbols pe requests ⟨[], false, []⟩
  rw [collect, collectRequests]
  split
  · rw [usedOrdinals_collectAll]
    exact hrequests
  · exact hrequests

theorem mem_usedOrdinals {n : ℕ} :
    n ∈ usedOrdinals l ↔ n ≠ 0 ∧ ∃ e ∈ l, e.ordinal = n := by
  simp only [usedOrdinals, List.mem_map, List.mem_filter, decide_eq_true_eq, ne_eq]
  refine ⟨fun ⟨e, ⟨he, hne⟩, heq⟩ => ⟨heq ▸ hne, e, he, heq⟩, fun ⟨hne, e, he, heq⟩ =>
    ⟨e, ⟨he, heq ▸ hne⟩, heq⟩⟩

theorem filterMap_requestedOrdinal_sublist (requests : List Request) :
    (requests.filterMap requestedOrdinal).Sublist
      ((requests.filterMap Request.ordinal).map UInt16.toNat) := by
  induction requests with
  | nil => exact .slnil
  | cons request requests ih =>
    cases hrequested : requestedOrdinal request with
    | none =>
      rw [List.filterMap_cons_none hrequested]
      cases hordinal : request.ordinal with
      | none => rwa [List.filterMap_cons_none hordinal]
      | some ordinal =>
        rw [List.filterMap_cons_some hordinal, List.map_cons]
        exact .cons _ ih
    | some n =>
      rw [List.filterMap_cons_some hrequested]
      rw [requestedOrdinal] at hrequested
      split_ifs at hrequested with hprivate hzero
      obtain rfl := Option.some.inj hrequested
      cases hordinal : request.ordinal with
      | none =>
        rw [hordinal] at hzero
        exact absurd rfl hzero
      | some ordinal =>
        rw [List.filterMap_cons_some hordinal, List.map_cons]
        exact .cons_cons _ ih

/-- **Ordinals that are distinct when asked for stay so.** -/
theorem nodup_usedOrdinals {requests : List Request} (symbols : List Symbol) (pe : Options)
    (h : (requests.filterMap Request.ordinal).Nodup) :
    (usedOrdinals (entries requests symbols pe)).Nodup := by
  have hmap := h.map fun a b hab => UInt16.toNat_inj.mp hab
  have hrequested := hmap.sublist (filterMap_requestedOrdinal_sublist requests)
  rw [← usedOrdinals_collect requests symbols pe] at hrequested
  have hperm : (usedOrdinals ((collect requests symbols pe).entries.mergeSort nameLe)).Perm
      (usedOrdinals (collect requests symbols pe).entries) :=
    ((List.mergeSort_perm _ _).filter _).map _
  exact (hperm.nodup_iff.mpr hrequested).sublist
    (((dedupName_sublist _).filter _).map _)

theorem usedOrdinals_lt {requests : List Request} {symbols : List Symbol} {pe : Options} {n : ℕ}
    (h : n ∈ usedOrdinals (entries requests symbols pe)) : n < 2 ^ 16 := by
  obtain ⟨hne, e, he, rfl⟩ := mem_usedOrdinals.mp h
  have hmem : e.ordinal ∈ usedOrdinals (collect requests symbols pe).entries :=
    mem_usedOrdinals.mpr ⟨hne, e, List.mem_mergeSort.mp ((dedupName_sublist _).subset he), rfl⟩
  rw [usedOrdinals_collect] at hmem
  obtain ⟨ordinal, -, hordinal⟩ :=
    List.mem_map.mp ((filterMap_requestedOrdinal_sublist requests).subset hmem)
  rw [← hordinal]
  exact ordinal.toNat_lt

/-! ### Diagnostics -/

/-- No error is reported while the exports are collected. -/
theorem diagnostics_collect (requests : List Request) (symbols : List Symbol) (pe : Options) :
    ∃ warnings : List (Name × Name × Bool), (collect requests symbols pe).diagnostics =
      warnings.map fun w => .warning w.1 w.2.1 w.2.2 := by
  have hfold : ∀ state : Collected, ∃ warnings : List (Name × Name × Bool),
      (requests.foldl (collectRequest symbols pe) state).diagnostics =
        state.diagnostics ++ warnings.map fun w => .warning w.1 w.2.1 w.2.2 := by
    induction requests with
    | nil => exact fun state => ⟨[], (List.append_nil _).symm⟩
    | cons request requests ih =>
      intro state
      obtain ⟨later, hlater⟩ := ih (collectRequest symbols pe state request)
      cases hprivate : request.privateExport with
      | true =>
        rw [collectRequest, hprivate, if_pos rfl] at hlater
        refine ⟨later, ?_⟩
        rw [List.foldl_cons, collectRequest, hprivate, if_pos rfl, hlater]
      | false =>
        obtain ⟨-, warnings, hwarnings⟩ := collectRequest_spec symbols pe state hprivate
        refine ⟨warnings ++ later, ?_⟩
        rw [List.foldl_cons, hlater, hwarnings, List.map_append, List.append_assoc]
  obtain ⟨warnings, hwarnings⟩ := hfold ⟨[], false, []⟩
  refine ⟨warnings, ?_⟩
  rw [collect, collectRequests]
  split <;> exact hwarnings

/-! ### Free ordinals -/

/-- The ordinals from `next` on that are not used. -/
def freeFrom (used : List ℕ) (next : ℕ) : List ℕ :=
  (List.range' next (2 ^ 16 - next)).filter (· ∉ used)

variable {next : ℕ}

theorem freeFrom_of_le {used : List ℕ} (h : next ≤ U16_MAX) :
    freeFrom used next =
      if next ∉ used then next :: freeFrom used (next + 1) else freeFrom used (next + 1) := by
  have hsucc : 2 ^ 16 - next = 2 ^ 16 - (next + 1) + 1 := by
    rw [U16_MAX] at h
    omega
  rw [freeFrom, hsucc, List.range'_succ]
  by_cases hused : next ∈ used
  · rw [List.filter_cons_of_neg (by simpa using hused), if_neg (not_not.mpr hused), freeFrom]
  · rw [List.filter_cons_of_pos (by simpa using hused), if_pos hused, freeFrom]

theorem freeFrom_end (used : List ℕ) : freeFrom used (2 ^ 16) = [] := rfl

/-- **The search finds the first free ordinal.** -/
theorem nextFree_eq (used : List ℕ) (h : next ≤ U16_MAX) :
    nextFree used next = (freeFrom used next).head? := by
  induction hn : U16_MAX - next using Nat.strongRecOn generalizing next with
  | _ n ih =>
    rw [nextFree, freeFrom_of_le h]
    by_cases hused : next ∈ used
    · rw [if_neg (not_not.mpr hused), if_neg (not_not.mpr hused)]
      by_cases hlast : U16_MAX ≤ next
      · have : next + 1 = 2 ^ 16 := by
          rw [U16_MAX] at h hlast
          omega
        rw [if_pos hlast, this, freeFrom_end]
        rfl
      · rw [if_neg hlast]
        exact ih (U16_MAX - (next + 1)) (by omega) (by omega) rfl
    · rw [if_pos hused, if_pos hused]
      rfl

theorem freeFrom_eq_cons {used : List ℕ} {free : ℕ} {rest : List ℕ} (h : next ≤ 2 ^ 16)
    (heq : freeFrom used next = free :: rest) :
    next ≤ free ∧ free < 2 ^ 16 ∧ free ∉ used ∧ rest = freeFrom used (free + 1) := by
  induction hn : 2 ^ 16 - next using Nat.strongRecOn generalizing next with
  | _ n ih =>
    rcases Nat.lt_or_ge U16_MAX next with hlt | hle
    · have : next = 2 ^ 16 := by
        rw [U16_MAX] at hlt
        omega
      rw [this, freeFrom_end] at heq
      exact nomatch heq
    · rw [freeFrom_of_le hle] at heq
      rw [U16_MAX] at hle
      by_cases hused : next ∈ used
      · rw [if_neg (not_not.mpr hused)] at heq
        obtain ⟨hle', hrest⟩ := ih (2 ^ 16 - (next + 1)) (by omega) (by omega) heq rfl
        exact ⟨by omega, hrest⟩
      · rw [if_pos hused] at heq
        obtain ⟨rfl, rfl⟩ := List.cons.inj heq
        exact ⟨le_rfl, by omega, hused, rfl⟩

/-- At least as many ordinals are free as are not used. -/
theorem length_freeFrom_one (used : List ℕ) :
    U16_MAX - used.length ≤ (freeFrom used 1).length := by
  have hsplit := List.length_eq_length_filter_add (l := List.range' 1 (2 ^ 16 - 1)) (· ∈ used)
  have hused : ((List.range' 1 (2 ^ 16 - 1)).filter (· ∈ used)).length ≤ used.length := by
    refine (List.subperm_of_subset ((List.nodup_range' 1).filter _) fun n hn => ?_).length_le
    exact of_decide_eq_true (List.mem_filter.mp hn).2
  rw [List.length_range'] at hsplit
  have hfree : (freeFrom used 1).length =
      ((List.range' 1 (2 ^ 16 - 1)).filter (fun n => !decide (n ∈ used))).length := by
    rw [freeFrom]
    congr 2
    funext n
    simp
  rw [hfree, U16_MAX]
  omega

/-! ### Assigned ordinals -/

/-- How many exports ask for no ordinal. -/
def implicitCount (l : List Export) : ℕ := (l.filter (·.ordinal = 0)).length

/-- The exports with fresh ordinals for those that have none. -/
def place : List Export → List ℕ → List Export
  | [], _ => []
  | e :: rest, fresh =>
    if e.ordinal ≠ 0 then e :: place rest fresh
    else { e with ordinal := fresh.headD 0 } :: place rest fresh.tail

theorem implicitCount_cons (e : Export) (l : List Export) :
    implicitCount (e :: l) = implicitCount l + if e.ordinal = 0 then 1 else 0 := by
  by_cases h : e.ordinal = 0
  · rw [implicitCount, List.filter_cons_of_pos (by simpa using h), if_pos h]
    rfl
  · rw [implicitCount, List.filter_cons_of_neg (by simpa using h), if_neg h]
    rfl

theorem place_nil (l : List Export) : place l [] = l := by
  induction l with
  | nil => rfl
  | cons e l ih =>
    rw [place]
    split_ifs with hzero
    · rw [ih]
    · show { e with ordinal := 0 } :: place l [] = e :: l
      rw [ih, ← not_not.mp hzero]

theorem map_place {β : Type*} {f : Export → β} (hf : ∀ e n, f { e with ordinal := n } = f e)
    (l : List Export) (fresh : List ℕ) : (place l fresh).map f = l.map f := by
  induction l generalizing fresh with
  | nil => rfl
  | cons e l ih =>
    rw [place]
    split_ifs
    · rw [List.map_cons, List.map_cons, ih]
    · rw [List.map_cons, List.map_cons, ih, hf]

theorem assignFrom_of_explicit (used : List ℕ) (next : ℕ) (h : implicitCount l = 0) :
    assignFrom used next l = some l := by
  induction l with
  | nil => rfl
  | cons e l ih =>
    rw [implicitCount_cons] at h
    have hne : e.ordinal ≠ 0 := fun hzero => by rw [if_pos hzero] at h; omega
    rw [assignFrom, if_pos hne, ih (by omega)]
    rfl

/-- **With room for all, the lowest free ordinals are given out in order.** -/
theorem assignFrom_eq (used : List ℕ) (hnext : next ≤ U16_MAX)
    (hroom : implicitCount l ≤ (freeFrom used next).length) :
    assignFrom used next l = some (place l (freeFrom used next)) := by
  induction l generalizing next with
  | nil => rfl
  | cons e l ih =>
    rw [implicitCount_cons] at hroom
    rw [assignFrom, place]
    by_cases hzero : e.ordinal = 0
    · rw [if_neg (not_not.mpr hzero), if_neg (not_not.mpr hzero), nextFree_eq used hnext]
      rw [if_pos hzero] at hroom
      cases hfree : freeFrom used next with
      | nil =>
        rw [hfree, List.length_nil] at hroom
        omega
      | cons free rest =>
        obtain ⟨-, hlt, -, rfl⟩ := freeFrom_eq_cons (by rw [U16_MAX] at hnext; omega) hfree
        rw [hfree, List.length_cons] at hroom
        have hrest : assignFrom used (succ16 free) l = some (place l (freeFrom used (free + 1))) := by
          rcases Nat.lt_or_ge (free + 1) (2 ^ 16) with hmore | hlast
          · rw [succ16, Nat.min_eq_left (by rw [U16_MAX]; omega)]
            exact ih (by rw [U16_MAX]; omega) (by omega)
          · -- The last ordinal was given out, and no export needs another one.
            have hend : freeFrom used (free + 1) = [] := by
              rw [show free + 1 = 2 ^ 16 by omega, freeFrom_end]
            rw [hend, List.length_nil] at hroom
            rw [hend, place_nil]
            exact assignFrom_of_explicit used _ (by omega)
        simp only [List.head?_cons, Option.bind_eq_bind, Option.bind_some, hrest, Option.pure_def,
          List.headD_cons, List.tail_cons]
    · rw [if_pos hzero, if_pos hzero]
      rw [if_neg hzero] at hroom
      rw [ih hnext (by omega)]
      rfl

theorem map_ordinal_place {fresh : List ℕ} (h : implicitCount l ≤ fresh.length) :
    ((place l fresh).map Export.ordinal).Perm (usedOrdinals l ++ fresh.take (implicitCount l)) := by
  induction l generalizing fresh with
  | nil => exact .refl _
  | cons e l ih =>
    rw [implicitCount_cons] at h ⊢
    rw [place]
    by_cases hzero : e.ordinal = 0
    · rw [if_neg (not_not.mpr hzero)]
      rw [if_pos hzero] at h ⊢
      have hused : usedOrdinals (e :: l) = usedOrdinals l := by
        rw [usedOrdinals, List.filter_cons_of_neg (by simp [hzero])]
        rfl
      cases fresh with
      | nil =>
        rw [List.length_nil] at h
        omega
      | cons n fresh =>
        rw [List.length_cons] at h
        rw [List.map_cons, hused, List.take_succ_cons, List.tail_cons, List.headD_cons]
        exact (List.Perm.cons n (ih (by omega))).trans List.perm_middle.symm
    · rw [if_pos hzero]
      rw [if_neg hzero] at h ⊢
      have hused : usedOrdinals (e :: l) = e.ordinal :: usedOrdinals l := by
        rw [usedOrdinals, List.filter_cons_of_pos (by simp [hzero])]
        rfl
      rw [List.map_cons, hused]
      exact List.Perm.cons _ (ih h)

theorem length_usedOrdinals_add (l : List Export) :
    (usedOrdinals l).length + implicitCount l = l.length := by
  induction l with
  | nil => rfl
  | cons e l ih =>
    rw [implicitCount_cons, List.length_cons]
    by_cases hzero : e.ordinal = 0
    · rw [if_pos hzero, usedOrdinals, List.filter_cons_of_neg (by simp [hzero]), ← ih, usedOrdinals]
      omega
    · rw [if_neg hzero, usedOrdinals, List.filter_cons_of_pos (by simp [hzero]), List.map_cons,
        List.length_cons, ← ih, usedOrdinals]
      omega

/-- The ordinals of the exports once assigned: those asked for, and the lowest free ones. -/
def ordinals (l : List Export) : List ℕ :=
  usedOrdinals l ++ (freeFrom (usedOrdinals l) 1).take (implicitCount l)

/-- **At most 65535 exports get distinct ordinals.** -/
theorem assignOrdinals_eq (hnodup : (usedOrdinals l).Nodup)
    (hused : ∀ n ∈ usedOrdinals l, n < 2 ^ 16) (hlen : l.length ≤ U16_MAX) :
    assignOrdinals l = some (place l (freeFrom (usedOrdinals l) 1)) ∧
      ((place l (freeFrom (usedOrdinals l) 1)).map Export.ordinal).Perm (ordinals l) ∧
      (ordinals l).Nodup ∧ ∀ n ∈ ordinals l, 1 ≤ n ∧ n ≤ U16_MAX := by
  have hroom : implicitCount l ≤ (freeFrom (usedOrdinals l) 1).length := by
    have := length_freeFrom_one (usedOrdinals l)
    have := length_usedOrdinals_add l
    omega
  have hmem : ∀ n ∈ freeFrom (usedOrdinals l) 1, 1 ≤ n ∧ n ≤ U16_MAX ∧ n ∉ usedOrdinals l := by
    intro n hn
    obtain ⟨hrange, hfree⟩ := List.mem_filter.mp hn
    have := List.mem_range'_1.mp hrange
    rw [U16_MAX]
    exact ⟨by omega, by omega, of_decide_eq_true hfree⟩
  have hfresh : (freeFrom (usedOrdinals l) 1).Nodup := (List.nodup_range' 1).filter _
  refine ⟨assignFrom_eq _ (by decide) hroom, map_ordinal_place hroom, ?_, ?_⟩
  · refine hnodup.append (hfresh.sublist (List.take_sublist _ _)) ?_
    intro n hn hn'
    exact (hmem n (List.mem_of_mem_take hn')).2.2 hn
  · intro n hn
    rcases List.mem_append.mp hn with hn | hn
    · have hne := (mem_usedOrdinals.mp hn).1
      have := hused n hn
      rw [U16_MAX]
      exact ⟨by omega, by omega⟩
    · have := hmem n (List.mem_of_mem_take hn)
      exact ⟨this.1, this.2.1⟩

end Qld.Coff.Edata
