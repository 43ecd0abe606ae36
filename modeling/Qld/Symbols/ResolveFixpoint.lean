import Qld.Symbols.ResolveCorrect

/-!
# The outcome of resolution is a fixpoint

* `chunkById_heads` — entries sorted by symbol fall into one chunk per symbol;
* `mem_collectUndefined`, `collectUndefined_nodup` — what is reported undefined;
* `RunInv.live_iff`, `RunInv.extracted_nodup` — which files a run makes live;
* `resolveSymbols_fixpoint` — the driver ends, and its outcome is a fixpoint.
-/

namespace Qld.Symbols

open Qld.Lib SymbolTable

/-! ### Chunks of sorted entries -/

section Chunks

variable {α : Type}

/-- The first entries of chunks of sorted entries: one for each symbol. -/
theorem chunkById_heads {l : List (ℕ × α)} (hl : l.Pairwise fun a b => a.1 ≤ b.1) :
    ((chunkById l).filterMap List.head?).Pairwise (fun a b => a.1 < b.1) ∧
      ∀ id, (∃ a ∈ (chunkById l).filterMap List.head?, a.1 = id) ↔ ∃ a ∈ l, a.1 = id := by
  refine ⟨?_, fun id => ⟨fun h => ?_, fun h => ?_⟩⟩
  · have hsorted := @splitBy_pairwise _ _ _ _ Prod.fst (· < ·) _ _ (hl.imp Nat.eq_or_lt_of_le)
    refine List.pairwise_filterMap.mpr (hsorted.imp fun {g h} hlt => ?_)
    intro a ha b hb
    exact hlt a (List.mem_of_mem_head? ha) b (List.mem_of_mem_head? hb)
  · obtain ⟨a, ha, hid⟩ := h
    obtain ⟨g, hg, hhead⟩ := List.mem_filterMap.mp ha
    refine ⟨a, ?_, hid⟩
    rw [← List.flatten_splitBy (fun a b => a.1 == b.1) l, List.mem_flatten]
    exact ⟨g, hg, List.mem_of_mem_head? hhead⟩
  · obtain ⟨a, ha, hid⟩ := h
    rw [← List.flatten_splitBy (fun a b => a.1 == b.1) l, List.mem_flatten] at ha
    obtain ⟨g, hg, hag⟩ := ha
    have hne := List.ne_nil_of_mem_splitBy hg
    refine ⟨g.head hne, List.mem_filterMap.mpr ⟨g, hg, List.head?_eq_some_head hne⟩, ?_⟩
    rw [← hid]
    exact splitBy_same hg (List.head_mem hne) hag

end Chunks

/-! ### Undefined symbols -/

section Undefined

variable {t : SymbolTable} {files : List ResolveFile} {work : List Work}

theorem undefinedReference_isSome {e : Entry} {id : ℕ} :
    (∃ r, undefinedReference t files e = some (id, r)) ↔
      e.id = id ∧ (fileAt files e.file).symbolUse e.symbol = .reference false ∧
        ((t.definition id).kind = .undefined ∨ (t.definition id).kind = .lazy) := by
  rw [undefinedReference]
  split
  · next huse => simp [huse]
  · next huse =>
    rw [not_not] at huse
    split
    · next hkind =>
      constructor
      · intro ⟨r, hr⟩
        exact absurd hr (by simp)
      · intro ⟨hid, _, hor⟩
        rw [hid] at hkind
        exact absurd hor (by simp [hkind])
    · next hkind =>
      constructor
      · intro ⟨r, hr⟩
        rw [Option.some.injEq, Prod.mk.injEq] at hr
        refine ⟨hr.1, huse, ?_⟩
        rw [← hr.1]
        tauto
      · intro ⟨hid, _⟩
        exact ⟨_, by rw [hid]⟩

/-- The references that are reported, sorted. -/
def sortedReferences (t : SymbolTable) (files : List ResolveFile) (work : List Work) :
    List (ℕ × SymbolReference) :=
  ((workEntries work).filterMap (undefinedReference t files)).insertionSort
    fun a b => toLex (a.1, a.2.key) ≤ toLex (b.1, b.2.key)

theorem sortedReferences_sorted :
    (sortedReferences t files work).Pairwise fun a b => a.1 ≤ b.1 := by
  have : Std.Total fun a b : ℕ × SymbolReference => toLex (a.1, a.2.key) ≤ toLex (b.1, b.2.key) :=
    ⟨fun a b => le_total _ _⟩
  have : IsTrans _ fun a b : ℕ × SymbolReference => toLex (a.1, a.2.key) ≤ toLex (b.1, b.2.key) :=
    ⟨fun a b c => le_trans⟩
  refine (List.pairwise_insertionSort _ _).imp fun {a b} hab => ?_
  rcases Prod.Lex.le_iff.mp hab with hlt | ⟨heq, -⟩
  · exact hlt.le
  · exact heq.le

/-- The symbols reported undefined, before they are ordered. -/
theorem collectUndefined_perm :
    ((collectUndefined t files work).map UndefinedSymbol.symbol).Perm
      (((chunkById (sortedReferences t files work)).filterMap List.head?).map Prod.fst) := by
  refine ((List.perm_insertionSort _ _).map _).trans ?_
  rw [List.map_filterMap, List.map_filterMap]
  apply List.Perm.of_eq
  refine List.filterMap_congr fun g _ => ?_
  cases g with
  | nil => rfl
  | cons a g => rfl

/-- **Each symbol is reported once.** -/
theorem collectUndefined_nodup :
    ((collectUndefined t files work).map UndefinedSymbol.symbol).Nodup := by
  rw [collectUndefined_perm.nodup_iff]
  refine List.pairwise_map.mpr ((chunkById_heads sortedReferences_sorted).1.imp ?_)
  intro a b hab
  exact hab.ne

/-- **The symbols reported undefined.** -/
theorem mem_collectUndefined {id : ℕ} :
    id ∈ (collectUndefined t files work).map UndefinedSymbol.symbol ↔
      (∃ e ∈ workEntries work, e.id = id ∧
        (fileAt files e.file).symbolUse e.symbol = .reference false) ∧
      ((t.definition id).kind = .undefined ∨ (t.definition id).kind = .lazy) := by
  rw [collectUndefined_perm.mem_iff, List.mem_map,
    (chunkById_heads sortedReferences_sorted).2 id]
  have hmem : ∀ a, a ∈ sortedReferences t files work ↔
      ∃ e ∈ workEntries work, undefinedReference t files e = some a := by
    intro a
    rw [sortedReferences, List.mem_insertionSort, List.mem_filterMap]
  constructor
  · intro ⟨⟨key, r⟩, ha, hkey⟩
    obtain rfl : key = id := hkey
    obtain ⟨e, he, hr⟩ := (hmem _).mp ha
    obtain ⟨hid, huse, hkind⟩ := undefinedReference_isSome.mp ⟨r, hr⟩
    exact ⟨⟨e, he, hid, huse⟩, hkind⟩
  · intro ⟨⟨e, he, hid, huse⟩, hkind⟩
    obtain ⟨r, hr⟩ := undefinedReference_isSome.mpr ⟨hid, huse, hkind⟩
    exact ⟨(id, r), (hmem _).mpr ⟨e, he, hr⟩, rfl⟩

theorem collectUndefined_name {u : UndefinedSymbol} (hu : u ∈ collectUndefined t files work) :
    u.name = t.names.getD u.symbol ⟨[], none⟩ := by
  rw [collectUndefined, List.mem_insertionSort, List.mem_filterMap] at hu
  obtain ⟨g, -, hg⟩ := hu
  obtain ⟨a, -, rfl⟩ := Option.map_eq_some_iff.mp hg
  rfl

end Undefined

/-! ### The files that a run makes live -/

section Runs

variable {hash : SymbolName → UInt64} {memory : ℕ → UInt8} {resolver : Resolver}
  {files : List ResolveFile} {start : SymbolTable} {live : ℕ → Bool} {load : List ℕ}
  {rounds : List (RoundEnd Unit)}

/-- The members that the rounds extract, by position. -/
def extractedOf (rounds : List (RoundEnd Unit)) : List (List ℕ) :=
  rounds.dropLast.map fun e => byPosition e.files e.members

theorem byPosition_perm (files : List ResolveFile) (indices : List ℕ) :
    (byPosition files indices).Perm indices := List.perm_insertionSort _ _

theorem RunInv.ne_nil (h : RunInv hash memory resolver files start live load rounds) :
    rounds ≠ [] := by
  intro hnil
  rw [hnil] at h
  exact h

variable {e : RoundEnd Unit}

theorem extractedOf_cons (hne : rounds ≠ []) :
    extractedOf (e :: rounds) = byPosition e.files e.members :: extractedOf rounds := by
  rw [extractedOf, List.dropLast_cons_of_ne_nil hne]
  rfl

/-- **What holds at the end of each round.** -/
theorem RunInv.round (h : RunInv hash memory resolver files start live load rounds) {r : ℕ}
    (he : rounds[r]? = some e) :
    ∃ prev, RoundInv hash memory resolver files start prev e := by
  induction rounds generalizing live load r with
  | nil => exact absurd h id
  | cons first rounds ih =>
    obtain ⟨hinv, -, hrest⟩ := h
    cases r with
    | zero =>
      rw [List.getElem?_cons_zero, Option.some.injEq] at he
      exact ⟨live, he ▸ hinv⟩
    | succ r =>
      rw [List.getElem?_cons_succ] at he
      rcases hrest with ⟨rfl, -⟩ | ⟨-, hrun⟩
      · exact absurd he (by simp)
      · exact ih hrun he

/-- **The files live in a round: those before, and those extracted since.** -/
theorem RunInv.live_iff (h : RunInv hash memory resolver files start live load rounds) {r : ℕ}
    (he : rounds[r]? = some e) (i : ℕ) :
    e.live i = true ↔
      (live i = true ∨ i ∈ load) ∨ i ∈ ((extractedOf rounds).take r).flatten := by
  induction rounds generalizing live load r with
  | nil => exact absurd h id
  | cons first rounds ih =>
    obtain ⟨-, hlive, hrest⟩ := h
    have hfirst : first.live i = true ↔ live i = true ∨ i ∈ load := by
      rw [hlive, Bool.or_eq_true, decide_eq_true_eq]
    cases r with
    | zero =>
      rw [List.getElem?_cons_zero, Option.some.injEq] at he
      rw [← he, hfirst, List.take_zero, List.flatten_nil]
      simp
    | succ r =>
      rw [List.getElem?_cons_succ] at he
      rcases hrest with ⟨rfl, -⟩ | ⟨-, hrun⟩
      · exact absurd he (by simp)
      · rw [ih hrun he, hfirst, extractedOf_cons hrun.ne_nil, List.take_succ_cons,
          List.flatten_cons, List.mem_append, (byPosition_perm _ _).mem_iff, or_assoc]

/-- **No file is extracted twice, and none that was live.** -/
theorem RunInv.extracted_nodup (h : RunInv hash memory resolver files start live load rounds) :
    (extractedOf rounds).flatten.Nodup ∧
      ∀ i ∈ (extractedOf rounds).flatten, ¬(live i = true ∨ i ∈ load) := by
  induction rounds generalizing live load with
  | nil => exact absurd h id
  | cons first rounds ih =>
    obtain ⟨hinv, hlive, hrest⟩ := h
    have hfirst : ∀ i, first.live i = true ↔ live i = true ∨ i ∈ load := fun i => by
      rw [hlive, Bool.or_eq_true, decide_eq_true_eq]
    rcases hrest with ⟨rfl, -⟩ | ⟨-, hrun⟩
    · exact ⟨List.nodup_nil, fun i hi => absurd hi List.not_mem_nil⟩
    · obtain ⟨hnodup, hnew⟩ := ih hrun
      have hperm := byPosition_perm first.files first.members
      rw [extractedOf_cons hrun.ne_nil, List.flatten_cons]
      refine ⟨List.nodup_append.mpr ⟨?_, hnodup, fun i hi j hj hij => ?_⟩, fun i hi => ?_⟩
      · rw [hperm.nodup_iff]
        exact hinv.members_sorted.imp fun hab => hab.ne
      · exact hnew j hj (.inr (hij ▸ hperm.mem_iff.mp hi))
      · rw [← hfirst, Bool.not_eq_true]
        rcases List.mem_append.mp hi with hi | hi
        · exact (hinv.members_dead i (hperm.mem_iff.mp hi)).2
        · have := hnew i hi
          rw [not_or, Bool.not_eq_true] at this
          exact this.1

theorem RunInv.last (h : RunInv hash memory resolver files start live load rounds)
    (he : rounds.getLast? = some e) : e.members = [] := by
  induction rounds generalizing live load with
  | nil => exact absurd h id
  | cons first rounds ih =>
    obtain ⟨-, -, hrest⟩ := h
    rcases hrest with ⟨rfl, hnil⟩ | ⟨-, hrun⟩
    · rw [List.getLast?_singleton, Option.some.injEq] at he
      rw [← he, hnil]
    · refine ih hrun ?_
      rwa [List.getLast?_cons_of_ne_nil hrun.ne_nil] at he

end Runs

/-! ### The outcome -/

section Outcome

variable {hash : SymbolName → UInt64} {memory : ℕ → UInt8} {resolver : Resolver}
  {files : List ResolveFile} {t : SymbolTable}

/-- File `i` is live from the start. -/
def StartsLive (files : List ResolveFile) (i : ℕ) : Prop :=
  i < files.length ∧ (fileAt files i).isLiveAtStart = true

/-- The outcome is a fixpoint: `rounds` are the ends of the rounds, `last` the end of the last. -/
structure IsFixpoint (memory : ℕ → UInt8) (resolver : Resolver) (files : List ResolveFile)
    (rounds : List (RoundEnd Unit)) (last : RoundEnd Unit) (outcome : Resolution) : Prop where
  last_round : rounds.getLast? = some last
  /-- Live are the files live at start, and those listed in exactly one round. -/
  live_iff : ∀ i, outcome.live[i]? = some true ↔
    StartsLive files i ∨ (outcome.extracted.countP fun members => decide (i ∈ members)) = 1
  /-- The files live by the end of a round. -/
  round_live : ∀ (r : ℕ) (e : RoundEnd Unit), rounds[r]? = some e → ∀ i,
    e.live i = true ↔ StartsLive files i ∨ i ∈ (outcome.extracted.take r).flatten
  /-- A member was the file of the best definition, a lazy one, of a referenced name. -/
  extracted : ∀ (r : ℕ) (members : List ℕ), outcome.extracted[r]? = some members →
    ∀ m ∈ members, ∃ (e : RoundEnd Unit) (n : SymbolName), rounds[r]? = some e ∧
      e.live m = false ∧ (∃ i, e.live i = true ∧ RefersTo files i n) ∧
      IsBest (Precedes resolver) (candidatesOf memory files e.live n) (definitionOf e.table n) ∧
      (definitionOf e.table n).kind = .lazy ∧ (definitionOf e.table n).file = m
  /-- No reference of a live file waits for a member. -/
  settled : ∀ i n, outcome.live[i]? = some true → RefersTo files i n →
    (definitionOf last.table n).kind = .lazy →
      outcome.live[(definitionOf last.table n).file]? = some true
  /-- The definition of each name is the best candidate. -/
  best : ∀ n, HoldsBest (Precedes resolver)
    (candidatesOf memory files (fun i => outcome.live.getD i false) n)
    (cellOf (definitionOf last.table n))
  undefined_iff : ∀ n, n ∈ outcome.undefined.map UndefinedSymbol.name ↔
    (∃ i, outcome.live[i]? = some true ∧ RefersTo files i n) ∧
      ((definitionOf last.table n).kind = .undefined ∨ (definitionOf last.table n).kind = .lazy)
  undefined_nodup : (outcome.undefined.map UndefinedSymbol.name).Nodup

variable {last : RoundEnd Unit}

variable {prev : ℕ → Bool}

/-- The entries of the live files that reference a name. -/
theorem liveWork_refers (h : RoundInv hash memory resolver files t prev last) {id : ℕ} :
    (∃ e ∈ workEntries (liveWork files.length last.live last.symbolIds), e.id = id ∧
        (fileAt files e.file).symbolUse e.symbol = .reference false) ↔
      ∃ n ∈ last.table.names, last.table.names.idxOf n = id ∧
        ∃ i, last.live i = true ∧ RefersTo files i n := by
  constructor
  · intro ⟨e, he, hid, huse⟩
    obtain ⟨w, hw, hfile, -, hget⟩ := mem_workEntries.mp he
    obtain ⟨i, hi, rfl⟩ := List.mem_map.mp hw
    obtain rfl : e.file = i := hfile
    have hlive := (List.mem_filter.mp hi).2
    obtain ⟨hids, hknown⟩ := h.ids e.file hlive
    change (last.symbolIds e.file)[e.symbol]? = some e.id at hget
    rw [hids, getElem?_map_idxOf] at hget
    obtain ⟨n, hn, hidx⟩ := hget
    exact ⟨n, hknown n (List.mem_of_getElem? hn), hidx.trans hid, e.file, hlive, e.symbol, hn, huse⟩
  · intro ⟨n, hn, hidx, i, hlive, k, hk, huse⟩
    refine ⟨⟨i, k, id, false⟩, mem_workEntries.mpr ⟨⟨i, last.symbolIds i, false⟩, ?_, rfl, rfl, ?_⟩,
      rfl, huse⟩
    · exact List.mem_map.mpr ⟨i, List.mem_filter.mpr
        ⟨List.mem_range.mpr (h.live_lt i hlive), hlive⟩, rfl⟩
    · show (last.symbolIds i)[k]? = some id
      rw [(h.ids i hlive).1, getElem?_map_idxOf]
      exact ⟨n, hk, hidx⟩

theorem undefined_names (h : RoundInv hash memory resolver files t prev last) :
    (∀ n, n ∈ (collectUndefined last.table files
        (liveWork files.length last.live last.symbolIds)).map UndefinedSymbol.name ↔
      (∃ i, last.live i = true ∧ RefersTo files i n) ∧
        ((definitionOf last.table n).kind = .undefined ∨
          (definitionOf last.table n).kind = .lazy)) ∧
    ((collectUndefined last.table files
      (liveWork files.length last.live last.symbolIds)).map UndefinedSymbol.name).Nodup := by
  generalize hreport : collectUndefined last.table files
    (liveWork files.length last.live last.symbolIds) = report
  have hmem : ∀ id, id ∈ report.map UndefinedSymbol.symbol ↔ _ := fun id => by
    rw [← hreport, mem_collectUndefined, liveWork_refers h]
  have hname : ∀ u ∈ report, last.table.names[u.symbol]? = some u.name := by
    intro u hu
    obtain ⟨⟨n, hn, hidx, -⟩, -⟩ := (hmem u.symbol).mp (List.mem_map_of_mem hu)
    have hget : last.table.names[u.symbol]? = some n := by
      rw [← hidx, List.getElem?_idxOf hn]
    rw [hget, collectUndefined_name (hreport ▸ hu), List.getD_eq_getElem?_getD, hget,
      Option.getD_some]
  have hindex : ∀ u ∈ report, u.symbol = last.table.names.idxOf u.name := by
    intro u hu
    obtain ⟨hlt, hget⟩ := List.getElem?_eq_some_iff.mp (hname u hu)
    rw [← hget, h.rep.nodup.idxOf_getElem]
  refine ⟨fun n => ⟨fun hn => ?_, fun ⟨⟨i, hlive, href⟩, hkind⟩ => ?_⟩, ?_⟩
  · obtain ⟨u, hu, rfl⟩ := List.mem_map.mp hn
    obtain ⟨⟨n, hn, hidx, href⟩, hkind⟩ := (hmem u.symbol).mp (List.mem_map_of_mem hu)
    rw [hindex u hu] at hidx hkind
    rw [(List.idxOf_inj hn).mp hidx] at href
    exact ⟨href, hkind⟩
  · have hn : n ∈ last.table.names := by
      obtain ⟨k, hk, -⟩ := href
      exact (h.ids i hlive).2 n (List.mem_of_getElem? hk)
    obtain ⟨u, hu, hid⟩ := List.mem_map.mp
      ((hmem (last.table.names.idxOf n)).mpr ⟨⟨n, hn, rfl, i, hlive, href⟩, hkind⟩)
    refine List.mem_map.mpr ⟨u, hu, ?_⟩
    rw [hindex u hu] at hid
    exact ((List.idxOf_inj hn).mp hid.symm).symm
  · have hnodup : (report.map UndefinedSymbol.symbol).Nodup := hreport ▸ collectUndefined_nodup
    rw [List.map_congr_left hindex] at hnodup
    rw [show (fun u : UndefinedSymbol => last.table.names.idxOf u.name) =
      last.table.names.idxOf ∘ UndefinedSymbol.name from rfl, ← List.map_map] at hnodup
    exact hnodup.of_map

theorem initial_live {i : ℕ} :
    ((initialState () files t).live i = true ∨ i ∈ (initialState () files t).load) ↔
      StartsLive files i := by
  rw [initialState, List.mem_filter, List.mem_range, StartsLive]
  simp

/-- In a list of lists without repeats, to be listed is to be in exactly one of them. -/
theorem countP_mem_eq_one {lists : List (List ℕ)} (h : lists.flatten.Nodup) (i : ℕ) :
    (lists.countP fun members => decide (i ∈ members)) = 1 ↔ i ∈ lists.flatten := by
  have hle : (lists.countP fun members => decide (i ∈ members)) ≤ 1 := by
    induction lists with
    | nil => simp
    | cons members lists ih =>
      rw [List.flatten_cons, List.nodup_append] at h
      rw [List.countP_cons]
      split
      · next hi =>
        have hzero : (lists.countP fun members => decide (i ∈ members)) = 0 := by
          rw [List.countP_eq_zero]
          intro other hother hmem
          exact h.2.2 i (of_decide_eq_true hi) i
            (List.mem_flatten.mpr ⟨other, hother, of_decide_eq_true hmem⟩) rfl
        omega
      · exact ih h.2.1
  have hpos : 0 < (lists.countP fun members => decide (i ∈ members)) ↔ i ∈ lists.flatten := by
    rw [List.countP_pos_iff, List.mem_flatten]
    simp
  rw [← hpos]
  omega

theorem resolution_live {rounds : List (RoundEnd Unit)} {last : RoundEnd Unit}
    (h : RoundBase hash memory files t last) (i : ℕ) :
    (resolutionOf resolver rounds last).live[i]? = some true ↔ last.live i = true := by
  show ((List.range last.files.length).map last.live)[i]? = some true ↔ _
  rw [List.getElem?_map, h.same_files]
  by_cases hi : i < files.length
  · rw [List.getElem?_range hi, Option.map_some, Option.some.injEq]
  · rw [List.getElem?_eq_none (by simpa using hi)]
    simp only [Option.map_none, reduceCtorEq, false_iff]
    exact fun hlive => hi (h.live_lt i hlive)

variable {rounds : List (RoundEnd Unit)}

theorem resolution_live_getD (h : RoundBase hash memory files t last) :
    (fun i => (resolutionOf resolver rounds last).live.getD i false) = last.live := by
  funext i
  rw [List.getD_eq_getElem?_getD, Bool.eq_iff_iff, ← @resolution_live _ _ resolver _ _ rounds _ h i]
  cases (resolutionOf resolver rounds last).live[i]? with
  | none => simp
  | some b => simp

/-- **The outcome of a run is a fixpoint.** -/
theorem RunInv.fixpoint (h : RunInv hash memory resolver files t (initialState () files t).live
      (initialState () files t).load rounds) (hlast : rounds.getLast? = some last) :
    IsFixpoint memory resolver files rounds last (resolutionOf resolver rounds last) := by
  obtain ⟨hnodup, hnew⟩ := h.extracted_nodup
  have hget : rounds[rounds.length - 1]? = some last := by rw [← hlast, List.getLast?_eq_getElem?]
  have hextracted : (resolutionOf resolver rounds last).extracted = extractedOf rounds := rfl
  obtain ⟨prev, hround⟩ := h.round hget
  have hlive := @resolution_live hash memory resolver files t rounds last hround.toRoundBase
  have hall : ∀ i, last.live i = true ↔ StartsLive files i ∨ i ∈ (extractedOf rounds).flatten := by
    intro i
    rw [h.live_iff hget i, initial_live, List.take_of_length_le]
    rw [extractedOf, List.length_map, List.length_dropLast]
  refine ⟨hlast, fun i => ?_, fun r e he i => ?_, fun r members hmembers m hm => ?_,
    fun i n hi href hlazy => ?_, fun n => ?_, fun n => ?_, ?_⟩
  · rw [hlive, hall, hextracted, countP_mem_eq_one hnodup]
  · rw [h.live_iff he i, initial_live, hextracted]
  · rw [hextracted, extractedOf, List.getElem?_map, Option.map_eq_some_iff] at hmembers
    obtain ⟨e, he, rfl⟩ := hmembers
    have he' : rounds[r]? = some e := by
      rw [List.getElem?_dropLast] at he
      split at he
      · exact he
      · exact absurd he (by simp)
    obtain ⟨prev', hinv⟩ := h.round he'
    have hmem := (byPosition_perm _ _).mem_iff.mp hm
    obtain ⟨n, href, hlazy, hfile⟩ := hinv.sound m hmem
    refine ⟨e, n, he', (hinv.members_dead m hmem).2, href, ?_, hlazy, hfile⟩
    exact isBest_of_isDefined (hinv.best n) (isDefined_of_kind hlazy)
  · rw [hlive] at hi ⊢
    by_contra hdead
    have hmem := hround.complete n ⟨i, hi, href⟩ hlazy (by simpa using hdead)
    rw [h.last hlast] at hmem
    exact absurd hmem List.not_mem_nil
  · rw [resolution_live_getD hround.toRoundBase]
    exact hround.best n
  · simp only [hlive]
    have hundefined := (undefined_names hround).1 n
    rw [← hround.same_files] at hundefined ⊢
    exact hundefined
  · have hundefined := (undefined_names hround).2
    rw [← hround.same_files] at hundefined
    exact hundefined

/-- **Resolution ends, and its outcome is a fixpoint (proved).**  The rules of the resolver have to
be an order on the candidates of the files that are live in the end.  The only failure is that the
files or their names are too many. -/
theorem resolveSymbols_fixpoint (sched : DriverSchedule) (hstart : Unresolved hash t)
    (hload : ∀ i, (fileAt files i).load = .ok ())
    (hextracts : ∀ d, resolver.extracts d = (d.kind == .lazy)) (fuel : ℕ)
    (hfuel : files.length < fuel) :
    (∃ rounds last outcome, resolveSymbolsWith hash memory resolver noHook sched fuel () t files =
        some (.ok (rounds, outcome)) ∧
      ((∀ n, StrictTotalOn (Precedes resolver)
          (candidatesOf memory files (fun i => outcome.live.getD i false) n)) →
        IsFixpoint memory resolver files rounds last outcome)) ∨
    (∃ limit, resolveSymbolsWith hash memory resolver noHook sched fuel () t files =
        some (.error (.table (.limit limit))) ∧
      (U32_MAX < files.length ∨ t.limit - t.names.length <
        {n | n ∉ t.names ∧ Mentioned memory files n}.ncard)) := by
  rw [resolveSymbolsWith]
  by_cases hcount : U32_MAX < files.length
  · rw [if_pos hcount]
    exact .inr ⟨_, rfl, .inl hcount⟩
  · rw [if_neg hcount]
    have hinit := @StateInv.initial hash memory resolver files t hstart
    have hwaiting : (waiting files (initialState () files t).live
        (initialState () files t).load).card < fuel := by
      refine lt_of_le_of_lt (Finset.card_filter_le _ _) ?_
      rwa [Finset.card_range]
    rcases resolveRounds_ends hload fuel 0 _ hinit.toStateBase hwaiting with
      ⟨rounds, last, hrounds, hlast, hbase⟩ | ⟨hrounds, hover⟩
    · left
      rw [hrounds]
      simp only [hlast]
      refine ⟨rounds, last, _, rfl, fun htotal => ?_⟩
      rw [resolution_live_getD hbase] at htotal
      exact (resolveRounds_inv hload hextracts htotal hinit hrounds hlast).fixpoint hlast
    · right
      rw [hrounds]
      exact ⟨_, rfl, .inr hover⟩

/-- A run on one thread. -/
def inOrder : DriverSchedule where
  intern _ := ⟨1, fun n => [n], fun _ => List.sum_singleton, id, fun l => List.Perm.refl l⟩
  marks _ steps := steps
  marks_perm _ steps := List.Perm.refl steps

/-- An object that references a name, and an archive member that defines it. -/
def objectAndMember : List ResolveFile :=
  [⟨0, true, [], .ok (), [⟨[97], none⟩], fun _ => .reference false⟩,
    ⟨1, false, [⟨0, 1, none⟩], .ok (), [⟨[97], none⟩], fun _ => .definition .regular 0⟩]

/-- The candidates of these files: the member as a lazy one, and its definition. -/
theorem candidatesOf_objectAndMember (live : ℕ → Bool) (n : SymbolName) :
    candidatesOf (fun _ => 97) objectAndMember live n ⊆
      {d | d ∈ [(⟨.lazy, 1, 0, 1, 0⟩ : Definition), ⟨.regular, 1, 0, 1, 0⟩]} := by
  intro d hd
  rcases hd with ⟨i, hi, hlazy, k, hk, rfl⟩ | ⟨i, hi, -, k, kind, aux, hk, huse, -, rfl⟩
  · obtain rfl | rfl : i = 0 ∨ i = 1 := by
      change i < 2 at hi
      omega
    · exact absurd hlazy (by decide)
    · cases k with
      | zero => decide
      | succ k => exact absurd hk (by simp [lazyNamesOf, fileAt, objectAndMember])
  · obtain rfl | rfl : i = 0 ∨ i = 1 := by
      change i < 2 at hi
      omega
    · exact absurd huse (by simp [fileAt, objectAndMember])
    · cases k with
      | zero =>
        simp only [fileAt, objectAndMember, List.getD_cons_succ, List.getD_cons_zero,
          SymbolUse.definition.injEq] at huse
        obtain ⟨rfl, rfl⟩ := huse
        decide
      | succ k => exact absurd hk (by simp [fileAt, objectAndMember])

theorem mentioned_objectAndMember :
    {n | n ∉ SymbolTable.new.names ∧ Mentioned (fun _ => 97) objectAndMember n}.ncard ≤ 1 := by
  rw [← Set.ncard_singleton (⟨[97], none⟩ : SymbolName)]
  refine Set.ncard_le_ncard ?_ (Set.finite_singleton _)
  intro n ⟨_, i, hi, hn⟩
  obtain rfl | rfl : i = 0 ∨ i = 1 := by
    change i < 2 at hi
    omega
  · simpa [fileAt, objectAndMember, lazyNamesOf] using hn
  · simpa [fileAt, objectAndMember, lazyNamesOf, NameRef.read, readSlice] using hn

/-- The member is extracted for the reference. -/
theorem resolveSymbols_fixpoint_member :
    ∃ rounds last outcome, resolveSymbolsWith (fun _ => 0) (fun _ => 97) (elfRules false) noHook
        inOrder 3 () .new objectAndMember = some (.ok (rounds, outcome)) ∧
      IsFixpoint (fun _ => 97) (elfRules false) objectAndMember rounds last outcome := by
  have hload : ∀ i, (fileAt objectAndMember i).load = .ok () := by
    intro i
    match i with
    | 0 => rfl
    | 1 => rfl
    | i + 2 => rfl
  have hnew : Unresolved (fun _ => 0) .new := ⟨rep_new _, fun _ => rfl, fun _ => by
    rw [isReferenced, flagsOf, List.getD_eq_default _ _ (Nat.zero_le _)]
    decide⟩
  rcases @resolveSymbols_fixpoint (fun _ => 0) (fun _ => 97) (elfRules false) objectAndMember .new
    inOrder hnew hload (fun d => rfl) 3 (by decide) with
    ⟨rounds, last, outcome, hresult, hfix⟩ | ⟨_, -, hlimit⟩
  · refine ⟨rounds, last, outcome, hresult, hfix fun n => ?_⟩
    refine StrictTotalOn.mono ?_ (candidatesOf_objectAndMember _ n)
    refine ⟨?_, ?_, ?_⟩ <;> simp only [Set.mem_ofPred_eq] <;> decide
  · rcases hlimit with hlimit | hlimit
    · exact absurd hlimit (by decide)
    · have hroom : 1 < SymbolTable.new.limit - SymbolTable.new.names.length := by decide
      have := mentioned_objectAndMember
      omega

end Outcome

end Qld.Symbols
